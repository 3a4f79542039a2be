/-! Journals: the events of a run that are worth a log record, each with a level. A journal keeps
the events themselves; their texts are made when somebody reads it. -/
namespace WordMachine

inductive Level
  | error | warn | info | debug | trace
  deriving DecidableEq

namespace Level

def rank : Level → Nat
  | error => 0 | warn => 1 | info => 2 | debug => 3 | trace => 4

def name : Level → String
  | error => "error" | warn => "warn" | info => "info" | debug => "debug" | trace => "trace"

end Level

/-- An event of type `ε` is kept if its level is at most the threshold; without a threshold
nothing is. -/
structure Journal (ε : Type) where
  threshold : Option Level := none
  events : Array ε := #[]
  deriving DecidableEq

namespace Journal

variable {ε : Type}

def admits (journal : Journal ε) (level : Level) : Bool :=
  match journal.threshold with
  | none => false
  | some threshold => level.rank ≤ threshold.rank

def note (journal : Journal ε) (level : Level) (event : ε) : Journal ε :=
  if journal.admits level then
    { journal with events := journal.events.push event }
  else
    journal

end Journal

end WordMachine
