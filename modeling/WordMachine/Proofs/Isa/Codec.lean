import Mathlib.Data.List.Pairwise
import WordMachine.Isa.Instruction

/-! The codec is lossless, and operands of one instruction lie in fields that do not meet, so
that they can be stored in any order. -/
namespace WordMachine.Isa

namespace Instruction

def Encodable (instruction : Instruction) : Prop :=
  instruction.dest.toNat < 16 ∧ instruction.src.toNat < 16

theorem decode_encodable (word : CodeWord) : (decode word).Encodable := by
  simp only [Encodable, decode, UInt8.toNat_ofNat']
  omega

theorem encode_of_encodable {instruction : Instruction} (h : instruction.Encodable) :
    instruction.encode = .ok (.ofNat (instruction.opcode.toNat + 0x100 * instruction.dest.toNat
      + 0x1000 * instruction.src.toNat + 0x10000 * instruction.immediate.toNat)) := by
  rw [encode, if_neg (Nat.not_le.mpr h.1), if_neg (Nat.not_le.mpr h.2)]

theorem encodable_of_encode {instruction : Instruction} {word : CodeWord}
    (h : instruction.encode = .ok word) : instruction.Encodable := by
  unfold encode at h
  split at h
  · cases h
  · split at h
    · cases h
    · exact ⟨by omega, by omega⟩

theorem decode_of_encode {instruction : Instruction} {word : CodeWord}
    (h : instruction.encode = .ok word) : decode word = instruction := by
  have hfit := encodable_of_encode h
  rw [encode_of_encodable hfit, Except.ok.injEq] at h
  subst h
  obtain ⟨opcode, dest, src, immediate⟩ := instruction
  have ho : opcode.toNat < 0x100 := opcode.toNat_lt
  have hi : immediate.toNat < 0x10000 := immediate.toNat_lt
  obtain ⟨hd, hs⟩ : dest.toNat < 16 ∧ src.toNat < 16 := hfit
  simp only [decode, UInt32.toNat_ofNat', mk.injEq]
  refine ⟨UInt8.toNat.inj ?_, UInt8.toNat.inj ?_, UInt8.toNat.inj ?_, UInt16.toNat.inj ?_⟩
  all_goals
    simp only [UInt8.toNat_ofNat', UInt16.toNat_ofNat']
    omega

theorem encode_decode (word : CodeWord) : (decode word).encode = .ok word := by
  rw [encode_of_encodable (decode_encodable word)]
  have hw : word.toNat < 0x100000000 := word.toNat_lt
  congr 1
  apply UInt32.toNat.inj
  simp only [decode, UInt8.toNat_ofNat', UInt16.toNat_ofNat', UInt32.toNat_ofNat']
  omega

end Instruction

namespace Operand

variable {operand : Operand}

theorem kind_eq_register_iff :
    operand.kind = .register ↔ operand.field = .dest ∨ operand.field = .src := by
  obtain ⟨kind, role, name⟩ := operand
  cases kind <;> cases role <;> simp [field]

theorem kind_of_field_eq_pair (h : operand.field = .pair) : operand.kind = .port := by
  obtain ⟨kind, role, name⟩ := operand
  cases kind <;> cases role <;> first | rfl | cases h

end Operand

/-- Whether two fields have a bit in common. Only the pair meets others. -/
def Field.meets : Field → Field → Bool
  | .dest, .dest | .src, .src | .immediate, .immediate | .pair, .pair => true
  | .pair, .dest | .pair, .src | .dest, .pair | .src, .pair => true
  | _, _ => false

/-- The largest value that is stored as it is. -/
def Field.capacity : Field → Nat
  | .immediate => 0xffff
  | _ => 0xff

namespace Instruction

@[simp] private theorem opcode_set (instruction : Instruction) (field : Field) (value : Word) :
    (instruction.set field value).opcode = instruction.opcode := by
  cases field <;> rfl

theorem set_set (instruction : Instruction) (field : Field) (value value' : Word) :
    (instruction.set field value).set field value' = instruction.set field value' := by
  cases field <;> rfl

private theorem set_comm (instruction : Instruction) {field other : Field}
    (apart : field.meets other = false) (value value' : Word) :
    (instruction.set field value).set other value' =
      (instruction.set other value').set field value := by
  cases field <;> cases other <;> first | rfl | cases apart

theorem get_set_of_apart (instruction : Instruction) {field other : Field}
    (apart : field.meets other = false) (value : Word) :
    (instruction.set field value).get other = instruction.get other := by
  cases field <;> cases other <;> first | rfl | cases apart

/-- The pair has the destination in its high half. -/
theorem toNat_get_pair {instruction : Instruction} (h : instruction.Encodable) :
    (instruction.get .pair).toNat = 16 * instruction.dest.toNat + instruction.src.toNat := by
  obtain ⟨hdest, hsrc⟩ := h
  rw [get, UInt16.toNat_or, UInt16.toNat_shiftLeft, UInt8.toNat_toUInt16, UInt8.toNat_toUInt16,
    show UInt16.toNat 4 % 16 = 4 from rfl, Nat.shiftLeft_eq, Nat.mod_eq_of_lt (by omega),
    ← Nat.shiftLeft_eq, ← Nat.shiftLeft_add_eq_or_of_lt (by omega), Nat.shiftLeft_eq]
  omega

private theorem encodable_set_pair (instruction : Instruction) (value : Word) :
    (instruction.set .pair value).Encodable := by
  simp only [Encodable, set, UInt8.toNat_ofNat']
  omega

theorem get_set_self (instruction : Instruction) (field : Field) {value : Word}
    (fits : value.toNat ≤ field.capacity) : (instruction.set field value).get field = value := by
  cases field with
  | immediate => rfl
  | dest | src =>
    simp only [Field.capacity] at fits
    apply UInt16.toNat.inj
    simp only [set, get, UInt8.toNat_toUInt16, UInt16.toNat_toUInt8]
    omega
  | pair =>
    simp only [Field.capacity] at fits
    have hencodable := encodable_set_pair instruction value
    apply UInt16.toNat.inj
    rw [toNat_get_pair hencodable]
    simp only [set, UInt8.toNat_ofNat']
    omega

def fill (instruction : Instruction) (values : List (Operand × Word)) : Instruction :=
  values.foldl (fun instruction value => instruction.set value.1.field value.2) instruction

@[simp] theorem fill_nil (instruction : Instruction) : instruction.fill [] = instruction := rfl

@[simp] theorem fill_cons (instruction : Instruction) (value : Operand × Word)
    (values : List (Operand × Word)) : instruction.fill (value :: values) =
      (instruction.set value.1.field value.2).fill values := rfl

theorem opcode_fill (instruction : Instruction) (values : List (Operand × Word)) :
    (instruction.fill values).opcode = instruction.opcode := by
  induction values generalizing instruction with
  | nil => rfl
  | cons value values ih => rw [fill_cons, ih, opcode_set]

/-- A field that none of the operands meets can be stored last as well as first. -/
theorem fill_set (instruction : Instruction) {field : Field} {values : List (Operand × Word)}
    (apart : ∀ value ∈ values, field.meets value.1.field = false) (word : Word) :
    (instruction.set field word).fill values = (instruction.fill values).set field word := by
  induction values generalizing instruction with
  | nil => rfl
  | cons value values ih =>
    have hhead := apart value List.mem_cons_self
    rw [fill_cons, fill_cons, set_comm _ hhead]
    exact ih _ fun v hv => apart v (List.mem_cons_of_mem _ hv)

theorem get_fill_of_apart (instruction : Instruction) {field : Field}
    {values : List (Operand × Word)}
    (apart : ∀ value ∈ values, value.1.field.meets field = false) :
    (instruction.fill values).get field = instruction.get field := by
  induction values generalizing instruction with
  | nil => rfl
  | cons value values ih =>
    rw [fill_cons, ih _ fun v hv => apart v (List.mem_cons_of_mem _ hv)]
    exact get_set_of_apart _ (apart value List.mem_cons_self) _

/-- What was stored for an operand is read back, if the fields lie apart. -/
theorem get_fill_of_mem (instruction : Instruction) {values : List (Operand × Word)}
    (apart : values.Pairwise fun a b => a.1.field.meets b.1.field = false)
    {operand : Operand} {word : Word} (h : (operand, word) ∈ values)
    (fits : word.toNat ≤ operand.field.capacity) :
    (instruction.fill values).get operand.field = word := by
  induction values generalizing instruction with
  | nil => cases h
  | cons value values ih =>
    obtain ⟨hhead, htail⟩ := List.pairwise_cons.mp apart
    rcases List.mem_cons.mp h with rfl | h
    · rw [fill_cons, fill_set _ hhead]
      exact get_set_self _ _ fits
    · exact ih _ htail h

private theorem encodable_set {instruction : Instruction} (h : instruction.Encodable)
    {field : Field}
    {value : Word} (hvalue : field = .dest ∨ field = .src → value.toNat < 16) :
    (instruction.set field value).Encodable := by
  have hbyte (hlt : value.toNat < 16) : value.toUInt8.toNat < 16 := by
    rw [UInt16.toNat_toUInt8]
    omega
  cases field with
  | dest => exact ⟨hbyte (hvalue (.inl rfl)), h.2⟩
  | src => exact ⟨h.1, hbyte (hvalue (.inr rfl))⟩
  | immediate => exact h
  | pair => exact encodable_set_pair _ _

theorem encodable_fill {instruction : Instruction} (h : instruction.Encodable)
    {values : List (Operand × Word)} (hvalues : ∀ value ∈ values,
      value.1.field = .dest ∨ value.1.field = .src → value.2.toNat < 16) :
    (instruction.fill values).Encodable := by
  induction values generalizing instruction with
  | nil => exact h
  | cons value values ih =>
    obtain ⟨hhead, htail⟩ := List.forall_mem_cons.mp hvalues
    exact ih (encodable_set h hhead) htail

end Instruction

namespace Entry

def build (entry : Entry) (words : List Word) : Instruction :=
  Instruction.fill { opcode := entry.opcode } (entry.operands.zip words)

/-- Where all keys are distinct an entry is found by its key. -/
private theorem find?_eq_some_of_mem {α : Type} [BEq α] [LawfulBEq α] {key : Entry → α}
    {entries : List Entry} (hdistinct : entries.Pairwise fun a b => key a ≠ key b) {entry : Entry}
    (hmem : entry ∈ entries) :
    entries.find? (fun other => key other == key entry) = some entry := by
  induction entries with
  | nil => cases hmem
  | cons first rest ih =>
    obtain ⟨hfirst, hrest⟩ := List.pairwise_cons.mp hdistinct
    rcases List.mem_cons.mp hmem with rfl | hmem
    · exact List.find?_cons_of_pos (beq_self_eq_true _)
    · have hother : ¬ (key first == key entry) = true :=
        fun heq => hfirst entry hmem (beq_iff_eq.mp heq)
      exact Eq.trans (List.find?_cons_of_neg hother) (ih hrest hmem)

private theorem opcodes_distinct : all.Pairwise fun a b => a.opcode ≠ b.opcode := by
  decide +kernel

private theorem mnemonics_distinct : all.Pairwise fun a b => a.mnemonic ≠ b.mnemonic := by
  decide +kernel

theorem ofOpcode?_opcode (entry : Entry) (h : entry ∈ all) :
    ofOpcode? entry.opcode = some entry :=
  find?_eq_some_of_mem opcodes_distinct h

theorem ofOpcode?_eq_some {opcode : UInt8} {entry : Entry} :
    ofOpcode? opcode = some entry ↔ entry ∈ all ∧ entry.opcode = opcode := by
  constructor
  · intro h
    rw [ofOpcode?] at h
    have hopcode := List.find?_some h
    exact ⟨List.mem_of_find?_eq_some h, beq_iff_eq.mp hopcode⟩
  · rintro ⟨hmem, rfl⟩
    exact ofOpcode?_opcode entry hmem

private theorem map_toLower_mnemonic : ∀ entry ∈ all,
    entry.mnemonic.map Char.toLower = entry.mnemonic := by
  decide +kernel

theorem ofMnemonic?_mnemonic (entry : Entry) (h : entry ∈ all) :
    ofMnemonic? entry.mnemonic = some entry := by
  rw [ofMnemonic?, map_toLower_mnemonic entry h]
  exact find?_eq_some_of_mem mnemonics_distinct h

theorem ofMnemonic?_eq_some {mnemonic : List Char} {entry : Entry} :
    ofMnemonic? mnemonic = some entry ↔
      entry ∈ all ∧ mnemonic.map Char.toLower = entry.mnemonic := by
  constructor
  · intro h
    rw [ofMnemonic?] at h
    have hname := List.find?_some h
    exact ⟨List.mem_of_find?_eq_some h, (beq_iff_eq.mp hname).symm⟩
  · rintro ⟨hmem, hname⟩
    have h := ofMnemonic?_mnemonic entry hmem
    rwa [ofMnemonic?, map_toLower_mnemonic entry hmem, ← hname] at h

/-- No two operands of an entry have fields that meet. -/
theorem fields_apart : ∀ entry ∈ all,
    entry.operands.Pairwise fun a b => a.field.meets b.field = false := by
  decide +kernel

end Entry

end WordMachine.Isa
