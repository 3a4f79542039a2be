import WordMachine.Machine.Run

/-! Pacing: a batch of cycles has a time to last at a frequency. -/
namespace WordMachine.Machine

structure Tempo where
  frequency : Nat
  batch : Nat
  frequency_pos : 0 < frequency := by omega
  batch_pos : 0 < batch := by omega

namespace Tempo

/-- The tempo of two numbers, of which a zero counts as one. -/
def of (frequency batch : Nat) : Tempo :=
  { frequency := max frequency 1, batch := max batch 1 }

def budget (tempo : Tempo) : Nat :=
  tempo.batch * 1000000000 / tempo.frequency

end Tempo

/-- Runs in the batches of a tempo without waiting between them, at most `batches` of them. -/
def State.runAtTempo (tempo : Tempo) (batches : Nat) : Running (Option Ending) :=
  State.runBatches (pure () : Id Unit) (fun _ => pure) tempo.batch batches

end WordMachine.Machine
