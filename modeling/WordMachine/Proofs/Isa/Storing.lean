import Mathlib.Data.List.Induction
import Mathlib.Data.List.Pairwise
import WordMachine.Proofs.Isa.Canonical

/-! Operands are stored in any order, and any of them again: the word of the instruction holds the
last value of each operand and zero in every field that belongs to none. -/
namespace WordMachine.Isa

/-- The values that an operand can have: a register has four bits, a port a byte and all else a
word. -/
def Operand.InRange (operand : Operand) (value : Word) : Prop :=
  (operand.kind = .register → value.toNat ≤ 15) ∧ (operand.kind = .port → value.toNat ≤ 255)

/-- Whether values are in the range of operands of an entry. -/
def Entry.Stores (entry : Entry) (values : List (Operand × Word)) : Prop :=
  ∀ value ∈ values, value.1 ∈ entry.operands ∧ value.1.InRange value.2

/-- The value that is stored last for an operand, zero as long as there is none. -/
def lastStored (values : List (Operand × Word)) (operand : Operand) : Word :=
  (values.reverse.lookup operand).getD 0

private theorem Operand.InRange.le_capacity {operand : Operand} {value : Word}
    (h : operand.InRange value) :
    value.toNat ≤ operand.field.capacity := by
  obtain ⟨hregister, hport⟩ := h
  have hbyte (hle : value.toNat ≤ 15) : value.toNat ≤ 255 := by omega
  cases hfield : operand.field with
  | immediate => exact Nat.le_of_lt_succ value.toNat_lt
  | dest => exact hbyte (hregister (kind_eq_register_iff.mpr (.inl hfield)))
  | src => exact hbyte (hregister (kind_eq_register_iff.mpr (.inr hfield)))
  | pair => exact hport (kind_of_field_eq_pair hfield)

private theorem Field.meets_comm (field other : Field) : field.meets other = other.meets field := by
  cases field <;> cases other <;> rfl

/-- Two operands of an entry lie apart, whichever of them is written first. -/
private theorem Entry.apart_of_ne {entry : Entry} (hentry : entry ∈ all) {operand other : Operand}
    (hoperand : operand ∈ entry.operands) (hother : other ∈ entry.operands)
    (hne : operand ≠ other) : operand.field.meets other.field = false := by
  have hcomm : Std.Symm fun a b : Operand => a.field.meets b.field = false :=
    ⟨fun a b h => (Field.meets_comm b.field a.field).trans h⟩
  exact (fields_apart entry hentry).forall hoperand hother hne

section LastStored

variable {entry : Entry} {values : List (Operand × Word)} {operand : Operand}

private theorem lastStored_append (values : List (Operand × Word)) (stored operand : Operand)
    (value : Word) : lastStored (values ++ [(stored, value)]) operand =
      if operand = stored then value else lastStored values operand := by
  rw [lastStored, List.reverse_append, List.reverse_singleton, List.singleton_append,
    List.lookup_cons]
  by_cases h : operand = stored
  · rw [if_pos h, beq_iff_eq.mpr h]
    rfl
  · rw [if_neg h, beq_eq_false_iff_ne.mpr h]
    rfl

private theorem inRange_lastStored (hvalues : entry.Stores values) (operand : Operand) :
    operand.InRange (lastStored values operand) := by
  unfold lastStored
  cases hlookup : values.reverse.lookup operand with
  | none => exact ⟨fun _ => Nat.zero_le 15, fun _ => Nat.zero_le 255⟩
  | some value =>
    obtain ⟨front, rest, hsplit, -⟩ := List.lookup_eq_some_iff.mp hlookup
    have hmem : (operand, value) ∈ values.reverse := by
      rw [hsplit]
      exact List.mem_append_right _ List.mem_cons_self
    exact (hvalues _ (List.mem_reverse.mp hmem)).2

end LastStored

namespace Instruction

variable {entry : Entry} {values others : List (Operand × Word)}

private theorem fill_append (instruction : Instruction) (values : List (Operand × Word))
    (stored : Operand) (value : Word) : instruction.fill (values ++ [(stored, value)]) =
      (instruction.fill values).set stored.field value := by
  rw [fill, List.foldl_append]
  rfl

private theorem get_blank (opcode : UInt8) (field : Field) : get { opcode } field = 0 := by
  cases field with
  | dest | src | immediate => rfl
  | pair =>
    change ((0 : UInt8).toUInt16 <<< 4) ||| (0 : UInt8).toUInt16 = 0
    decide

/-- Whatever is stored can be encoded. -/
private theorem encodable_fill_of_stores (hvalues : entry.Stores values) :
    (fill { opcode := entry.opcode } values).Encodable := by
  have hblank : Encodable { opcode := entry.opcode } := ⟨Nat.zero_lt_succ 15, Nat.zero_lt_succ 15⟩
  refine encodable_fill hblank fun value hvalue hfield => ?_
  obtain ⟨-, hregister, -⟩ := hvalues value hvalue
  exact Nat.lt_succ_of_le (hregister (Operand.kind_eq_register_iff.mpr hfield))

section Stored

variable (hentry : entry ∈ Entry.all) (hvalues : entry.Stores values)

include hentry hvalues

/-- Each operand has the value that was stored for it last. -/
private theorem get_fill_eq_lastStored {operand : Operand} (hoperand : operand ∈ entry.operands) :
    (fill { opcode := entry.opcode } values).get operand.field = lastStored values operand := by
  induction values using List.reverseRecOn with
  | nil => exact get_blank _ _
  | append_singleton values value ih =>
    obtain ⟨stored, value⟩ := value
    obtain ⟨hfront, hlast⟩ := List.forall_mem_append.mp hvalues
    obtain ⟨hstored, hrange⟩ := hlast (stored, value) List.mem_cons_self
    rw [fill_append, lastStored_append]
    split
    next hsame =>
      rw [hsame]
      exact get_set_self _ _ hrange.le_capacity
    next hne =>
      rw [get_set_of_apart _ (Entry.apart_of_ne hentry hstored hoperand (Ne.symm hne))]
      exact ih hfront

omit hentry in
/-- A field that belongs to no operand is left alone. -/
private theorem get_fill_of_vacant {field : Field}
    (hvacant : ∀ operand ∈ entry.operands, operand.field.meets field = false) :
    (fill { opcode := entry.opcode } values).get field = 0 := by
  rw [get_fill_of_apart _ fun value hvalue => hvacant value.1 (hvalues value hvalue).1]
  exact get_blank _ _

/-- Where all of data memory can be addressed, only canonical instructions can be stored. -/
private theorem canonical_fill :
    entry.Canonical 0x10000 (fill { opcode := entry.opcode } values) where
  opcode := by
    rw [opcode_fill]
    exact Entry.ofOpcode?_opcode entry hentry
  vacant := fun _ _ hvacant => get_fill_of_vacant hvalues hvacant
  port := by
    intro operand hoperand hport _
    rw [get_fill_eq_lastStored hentry hvalues hoperand]
    exact (inRange_lastStored hvalues operand).2 hport
  address := fun operand _ _ => (get _ operand.field).toNat_lt

/-- In whatever order and however often values are stored, only the last ones matter. -/
private theorem fill_eq_of_lastStored (hothers : entry.Stores others)
    (hsame : ∀ operand ∈ entry.operands, lastStored others operand = lastStored values operand) :
    fill { opcode := entry.opcode } others = fill { opcode := entry.opcode } values := by
  apply (canonical_fill hentry hothers).eq (canonical_fill hentry hvalues)
    (encodable_fill_of_stores hothers) (encodable_fill_of_stores hvalues)
  intro operand hoperand
  rw [get_fill_eq_lastStored hentry hothers hoperand,
    get_fill_eq_lastStored hentry hvalues hoperand, hsame operand hoperand]

end Stored

/-- Values that are stored for the operands of an entry, in any order and any of them again, make an
instruction that has a word. The word gives back the last value of each operand and zero for all
that no operand occupies, and it is the same for all values whose last ones are the same. -/
theorem operands_stored {entry : Entry} (hentry : entry ∈ Entry.all)
    {values : List (Operand × Word)} (hvalues : entry.Stores values) :
    ∃ word, (fill { opcode := entry.opcode } values).encode = .ok word ∧
      (decode word).opcode = entry.opcode ∧
      (∀ operand ∈ entry.operands,
        (decode word).get operand.field = lastStored values operand) ∧
      (∀ field, (∀ operand ∈ entry.operands, operand.field.meets field = false) →
        (decode word).get field = 0) ∧
      ∀ others, entry.Stores others →
        (∀ operand ∈ entry.operands, lastStored others operand = lastStored values operand) →
        (fill { opcode := entry.opcode } others).encode = .ok word := by
  have hencode := encode_of_encodable (encodable_fill_of_stores hvalues)
  refine ⟨_, hencode, ?_⟩
  rw [decode_of_encode hencode]
  refine ⟨opcode_fill _ _, fun operand hoperand => get_fill_eq_lastStored hentry hvalues hoperand,
    fun field hvacant => get_fill_of_vacant hvalues hvacant, fun others hothers hsame => ?_⟩
  rw [fill_eq_of_lastStored hentry hvalues hothers hsame]
  exact hencode

/-- A port in both register fields, and an immediate that is zero until it is known. -/
theorem operands_stored_port :
    let port : Operand := ⟨.port, .free, "port"⟩
    let immediate : Operand := ⟨.immediate, .source, "imm"⟩
    ∃ entry ∈ Entry.all, entry.operation = .outputImmediate ∧
      entry.Stores [(immediate, 0), (port, 0x21), (immediate, 0xabcd)] ∧
      ∃ word, (fill { opcode := entry.opcode }
          [(immediate, 0), (port, 0x21), (immediate, 0xabcd)]).encode = .ok word ∧
        (decode word).get .pair = 0x21 ∧ (decode word).get .immediate = 0xabcd ∧
        (fill { opcode := entry.opcode } [(immediate, 0xabcd), (port, 0x21)]).encode = .ok word := by
  intro port immediate
  have hentry : ∃ entry ∈ Entry.all, entry.operation = .outputImmediate ∧
      entry.operands = [port, immediate] := by
    decide +kernel
  obtain ⟨entry, hlisted, hoperation, hoperands⟩ := hentry
  have hrange : port.InRange 0x21 ∧ immediate.InRange 0 ∧ immediate.InRange 0xabcd := by
    unfold Operand.InRange
    decide
  obtain ⟨hport, hzero, hvalue⟩ := hrange
  have hmem : port ∈ entry.operands ∧ immediate ∈ entry.operands := by
    rw [hoperands]
    decide
  have hstores : entry.Stores [(immediate, 0), (port, 0x21), (immediate, 0xabcd)] := by
    simp [Entry.Stores, hmem, hport, hzero, hvalue]
  have hothers : entry.Stores [(immediate, 0xabcd), (port, 0x21)] := by
    simp [Entry.Stores, hmem, hport, hvalue]
  obtain ⟨word, hencode, -, hread, -, hsame⟩ := operands_stored hlisted hstores
  refine ⟨entry, hlisted, hoperation, hstores, word, hencode, hread port hmem.1,
    hread immediate hmem.2, hsame _ hothers ?_⟩
  rw [hoperands]
  decide

end Instruction

end WordMachine.Isa
