import WordMachine.Proofs.Machine.Frame

/-! Histories of executed commands, and the flags that follow from them. -/
namespace WordMachine.Machine

open Isa (Command Condition Register)

structure Executed where
  command : Command
  view : View

namespace Executed

def compared? : Executed → Option (Word × Word)
  | ⟨.compare rd rs, view⟩ => some (view.reg rd, view.reg rs)
  | _ => none

def result? : Executed → Option Word
  | ⟨.add rd operand, view⟩ => some (view.reg rd + view.source operand)
  | ⟨.subtract rd operand, view⟩ => some (view.reg rd - view.source operand)
  | ⟨.and rd rs, view⟩ => some (view.reg rd &&& view.reg rs)
  | ⟨.or rd rs, view⟩ => some (view.reg rd ||| view.reg rs)
  | ⟨.xor rd rs, view⟩ => some (view.reg rd ^^^ view.reg rs)
  | ⟨.shiftLeft rt, view⟩ => some (view.reg rt <<< 1)
  | ⟨.shiftRight rt, view⟩ => some (view.reg rt >>> 1)
  | _ => none

end Executed

/-- What has been executed, the latest first. -/
abbrev History := List Executed

namespace History

def comparison? (history : History) : Option (Word × Word) :=
  history.findSome? Executed.compared?

def result? (history : History) : Option Word :=
  history.findSome? Executed.result?

def Compared (history : History) (relation : Word → Word → Prop) : Prop :=
  ∃ dest src, history.comparison? = some (dest, src) ∧ relation dest src

def Meets (history : History) : Condition → Prop
  | .always => True
  | .equal => history.Compared fun dest src => src = dest
  | .notEqual => ¬ history.Compared fun dest src => src = dest
  | .greater => history.Compared fun dest src => src > dest
  | .greaterEqual => history.Compared fun dest src => src ≥ dest
  | .less => history.Compared fun dest src => src < dest
  | .lessEqual => history.Compared fun dest src => src ≤ dest
  | .zero => history.result? = some 0
  | .notZero => history.result? ≠ some 0

/-- The word of the flag register that a history leaves. -/
structure Leaves (history : History) (bits : Word) : Prop where
  /-- Nothing is set but the five flags. -/
  within : bits &&& ~~~0x1f = 0
  uncompared : history.comparison? = none → bits &&& 7 = 0
  compared : ∀ dest src, history.comparison? = some (dest, src) →
    bits &&& 7 = if src < dest then 1 else if src > dest then 2 else 4
  halt : bits &&& 8 ≠ 0 ↔ ∃ executed ∈ history, executed.command = .halt
  zero : bits &&& 0x10 ≠ 0 ↔ history.result? = some 0

def flags (history : History) : Flags where
  less := history.comparison?.any fun (dest, src) => src < dest
  greater := history.comparison?.any fun (dest, src) => dest < src
  equal := history.comparison?.any fun (dest, src) => src == dest
  halt := history.any (·.command = .halt)
  zero := history.result?.any (· == 0)

variable (history : History)

private theorem flags_uncompared (h : history.comparison? = none) :
    history.flags = { history.flags with less := false, greater := false, equal := false } := by
  simp only [flags, h, Option.any_none]

private theorem flags_compared {dest src : Word} (h : history.comparison? = some (dest, src)) :
    history.flags = { history.flags with
      less := src < dest, greater := dest < src, equal := src == dest } := by
  simp only [flags, h, Option.any_some]

private theorem halt_flags :
    history.flags.halt = true ↔ ∃ executed ∈ history, executed.command = .halt := by
  simp only [flags, List.any_eq_true, decide_eq_true_eq]

private theorem zero_flags : history.flags.zero = true ↔ history.result? = some 0 := by
  simp only [flags, Option.any_eq_true, beq_iff_eq]
  exact ⟨fun ⟨_, hresult, hzero⟩ => hzero ▸ hresult, fun hresult => ⟨0, hresult, rfl⟩⟩

/-- Only commands that set flags count. -/
private theorem flags_cons (view : View) {command : Command} (h : ¬ command.setsFlags) :
    flags (⟨command, view⟩ :: history) = history.flags := by
  cases command with
  | add | subtract | and | or | xor | shiftLeft | shiftRight | compare | halt =>
    exact absurd rfl h
  | _ => rfl

theorem leaves_flags : history.Leaves history.flags.toBits where
  within := by
    rcases history.flags with ⟨_ | _, _ | _, _ | _, _ | _, _ | _⟩ <;> rfl
  uncompared h := by
    rw [flags_uncompared history h]
    rcases history.flags with ⟨_ | _, _ | _, _ | _, _ | _, _ | _⟩ <;> rfl
  compared dest src h := by
    rw [flags_compared history h]
    exact Flags.withComparison_and _ dest src
  halt := by
    rw [← halt_flags]
    rcases history.flags with ⟨_ | _, _ | _, _ | _, _ | _, _ | _⟩ <;> decide
  zero := by
    rw [← zero_flags]
    rcases history.flags with ⟨_ | _, _ | _, _ | _, _ | _, _ | _⟩ <;> decide

private theorem any_comparison (holds : Word → Word → Bool) :
    (history.comparison?.any fun (dest, src) => holds dest src) = true ↔
      history.Compared fun dest src => holds dest src = true := by
  unfold Compared
  cases history.comparison? with
  | none => simp
  | some values =>
    constructor
    · intro hholds
      exact ⟨_, _, rfl, hholds⟩
    · rintro ⟨dest, src, ⟨⟩, hholds⟩
      exact hholds

private theorem less_flags :
    history.flags.less = true ↔ history.Compared fun dest src => src < dest := by
  have hany := any_comparison history fun dest src => src < dest
  simp only [decide_eq_true_eq] at hany
  exact hany

private theorem greater_flags :
    history.flags.greater = true ↔ history.Compared fun dest src => src > dest := by
  have hany := any_comparison history fun dest src => dest < src
  simp only [decide_eq_true_eq] at hany
  exact hany

private theorem equal_flags :
    history.flags.equal = true ↔ history.Compared fun dest src => src = dest := by
  have hany := any_comparison history fun dest src => src == dest
  simp only [beq_iff_eq] at hany
  exact hany

private theorem compared_or {first second relation : Word → Word → Prop}
    (h : ∀ dest src, relation dest src ↔ first dest src ∨ second dest src) :
    (history.Compared first ∨ history.Compared second) ↔ history.Compared relation := by
  simp only [Compared, ← exists_or, ← and_or_left, h]

theorem meet_flags (condition : Condition) :
    history.flags.meet condition = true ↔ history.Meets condition := by
  cases condition with
  | always => exact iff_of_true rfl trivial
  | equal => exact equal_flags history
  | notEqual =>
    rw [Meets, ← equal_flags, Flags.meet, Bool.not_eq_true', Bool.not_eq_true]
  | greater => exact greater_flags history
  | greaterEqual =>
    rw [Flags.meet, Bool.or_eq_true, greater_flags, equal_flags]
    apply compared_or history
    intro dest src
    rw [ge_iff_le, UInt16.le_iff_lt_or_eq, eq_comm]
  | less => exact less_flags history
  | lessEqual =>
    rw [Flags.meet, Bool.or_eq_true, less_flags, equal_flags]
    apply compared_or history
    intro dest src
    exact UInt16.le_iff_lt_or_eq
  | zero => exact zero_flags history
  | notZero =>
    rw [Meets, ne_eq, ← zero_flags, Flags.meet, Bool.not_eq_true', Bool.not_eq_true]

end History

namespace View

variable {view : View}

private theorem flgs_compute (rd : Register) (result : Word) :
    (view.compute rd result).view.reg .flgs = (view.withZero result).reg .flgs :=
  flgs_assign

variable {history : History}

private theorem flgs_withZero (h : view.reg .flgs = history.flags.toBits) (result : Word) :
    (view.withZero result).reg .flgs =
      Flags.toBits { history.flags with zero := result == 0 } := by
  have hbits := Flags.toBits_withZero (view.reg .flgs) (result == 0)
  rw [h, Flags.ofBits_toBits] at hbits
  rw [hbits, ← h]
  simp only [beq_iff_eq]
  rfl

private theorem flgs_withComparison (h : view.reg .flgs = history.flags.toBits) (dest src : Word) :
    (view.withComparison dest src).reg .flgs =
      Flags.toBits { history.flags with
        less := src < dest, greater := dest < src, equal := src == dest } := by
  have hbits := Flags.toBits_withComparison (view.reg .flgs) dest src
  rw [h, Flags.ofBits_toBits] at hbits
  rw [hbits, ← h]
  rfl

private theorem flgs_withHalt (h : view.reg .flgs = history.flags.toBits) :
    view.withHalt.reg .flgs = Flags.toBits { history.flags with halt := true } := by
  have hbits := Flags.toBits_withHalt (view.reg .flgs)
  rw [h, Flags.ofBits_toBits] at hbits
  rw [hbits, ← h]
  rfl

/-- A command leaves the flags that follow from the history with it. -/
theorem flgs_perform (h : view.reg .flgs = history.flags.toBits) (command : Command) :
    (view.perform command).view.reg .flgs =
      (History.flags (⟨command, view⟩ :: history)).toBits := by
  by_cases hsets : command.setsFlags = true
  · cases command with
    | halt => exact (flgs_withHalt h).trans rfl
    | compare rd rs => exact flgs_withComparison h _ _
    | add rd operand | subtract rd operand =>
      rw [perform, flgs_compute]
      exact flgs_withZero h _
    | and rd rs | or rd rs | xor rd rs =>
      rw [perform, flgs_compute]
      exact flgs_withZero h _
    | shiftLeft rt | shiftRight rt =>
      rw [perform, flgs_compute]
      exact flgs_withZero h _
    | _ => cases hsets
  · rw [History.flags_cons history view hsets, ← h]
    exact reg_perform hsets

end View

end WordMachine.Machine
