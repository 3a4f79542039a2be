import WordMachine.Proofs.Assembly.Program
import WordMachine.Proofs.Isa.Reading

/-! What a statement says, read off its text alone, and that its instruction word means the same. -/
namespace WordMachine.Assembly

open Isa (Argument Command Entry Field Instruction Operand Register)

/-- Whether an operand text stands for an argument: a register by its name, and a number by a
literal or by the label that it is the index of. -/
def WrittenAs (labels : List Label) (text : List Char) : Argument → Prop
  | .register rd => Register.ofName? text = some rd
  | .number value =>
    match referredLabel? text with
    | some name => index? labels name = some value
    | none => Literal.parse? text = some value

/-- Whether a statement says a command: its mnemonic in any case, and the operands in order. -/
def Statement.Says (labels : List Label) (statement : Statement) (command : Command) : Prop :=
  statement.mnemonic.map Char.toLower = command.mnemonic.toList ∧
    List.Forall₂ (WrittenAs labels) statement.operands command.arguments

private theorem argument?_eq_some {labels : List Label} {operand : Operand} {text : List Char}
    {argument : Argument} : argument? labels operand text = some argument ↔
      argument.IsOf operand ∧ WrittenAs labels text argument := by
  unfold argument?
  by_cases hkind : operand.kind = .register
  · rw [if_pos hkind, Option.map_eq_some_iff]
    cases argument with
    | register rd =>
      constructor
      · rintro ⟨_, hname, ⟨⟩⟩
        exact ⟨hkind, hname⟩
      · rintro ⟨-, hname⟩
        exact ⟨rd, hname, rfl⟩
    | number value => exact ⟨nofun, fun h => absurd hkind h.1⟩
  · rw [if_neg hkind]
    cases argument with
    | register rd =>
      refine ⟨fun h => ?_, fun h => absurd h.1 hkind⟩
      split at h
      · obtain ⟨_, -, ⟨⟩⟩ := Option.map_eq_some_iff.mp h
      · obtain ⟨_, -, ⟨⟩⟩ := Option.map_eq_some_iff.mp h
    | number value =>
      unfold WrittenAs
      cases referredLabel? text <;> simp [Argument.IsOf, hkind]

variable {ramSize : Nat} {labels : List Label} {statement : Statement} {entry : Entry}
  {arguments : List Argument}

/-- The fields of an instruction give back what was stored for an operand. -/
private theorem argument_eq_of_get {instruction : Instruction} {operand : Operand}
    {argument : Argument} {rd rs : Register} (hsuits : argument.Suits ramSize operand)
    (hget : instruction.get operand.field = argument.word)
    (hrd : Register.ofAddress? instruction.dest = some rd)
    (hrs : Register.ofAddress? instruction.src = some rs) :
    operand.argument rd rs instruction.immediate (instruction.get .pair).toUInt8 = argument := by
  cases argument with
  | register register =>
    have haddress (address : UInt8)
        (h : address.toUInt16 = (Argument.register register).word) :
        Register.ofAddress? address = some register := by
      have hlt : (register.address : Nat) < 16 := register.address.isLt
      have hword := congrArg UInt16.toNat h
      rw [UInt8.toNat_toUInt16, Argument.word, UInt16.toNat_ofNat', Nat.mod_eq_of_lt (by omega)]
        at hword
      rw [← UInt8.ofNat_toNat (x := address), hword]
      exact Register.ofAddress?_address register
    unfold Operand.argument
    rcases Operand.kind_eq_register_iff.mp hsuits with hfield | hfield
    · rw [hfield] at hget
      rw [haddress _ hget] at hrd
      rw [hfield, Option.some.inj hrd]
    · rw [hfield] at hget
      rw [haddress _ hget] at hrs
      rw [hfield, Option.some.inj hrs]
  | number value =>
    obtain ⟨hkind, -, hle⟩ := hsuits
    have hlt : value < 0x10000 := by
      split at hle <;> omega
    have hword : (Argument.number value).word.toNat = value := by
      rw [Argument.word, UInt16.toNat_ofNat', Nat.mod_eq_of_lt hlt]
    -- A port is read from the low byte of its field, which holds all of it.
    have hbyte (hport : operand.kind = .port) :
        (Argument.number value).word.toUInt8.toNat = value := by
      rw [if_pos hport] at hle
      rw [UInt16.toNat_toUInt8, hword, Nat.mod_eq_of_lt (by omega)]
    unfold Operand.argument
    cases hfield : operand.field with
    | dest => exact absurd (Operand.kind_eq_register_iff.mpr (.inl hfield)) hkind
    | src => exact absurd (Operand.kind_eq_register_iff.mpr (.inr hfield)) hkind
    | immediate =>
      rw [hfield] at hget
      have hget : instruction.immediate = (Argument.number value).word := hget
      by_cases hport : operand.kind = .port
      · rw [if_pos hport, hget, hbyte hport]
      · rw [if_neg hport, hget, hword]
    | pair =>
      rw [hfield] at hget
      rw [hget, hbyte (Operand.kind_of_field_eq_pair hfield)]

/-- What was stored for an operand is found in its field. -/
theorem get_build_of_reads (h : statement.Reads ramSize labels entry arguments)
    {operand : Operand} {argument : Argument} (hmem : (operand, argument) ∈
      entry.operands.zip arguments) :
    (entry.build (arguments.map Argument.word)).get operand.field = argument.word := by
  have hlength : entry.operands.length = (arguments.map Argument.word).length := by
    rw [List.length_map, h.suits.length_eq]
  have hfst : (entry.operands.zip (arguments.map Argument.word)).map Prod.fst = entry.operands :=
    List.map_fst_zip (Nat.le_of_eq hlength)
  have hapart := Entry.fields_apart entry h.selects.listed
  rw [← hfst, List.pairwise_map] at hapart
  have hword : (operand, argument.word) ∈ entry.operands.zip (arguments.map Argument.word) := by
    rw [List.zip_map_right]
    exact List.mem_map.mpr ⟨(operand, argument), hmem, rfl⟩
  have hsuits := (List.forall₂_iff_zip.mp h.suits).2 hmem
  exact Instruction.get_fill_of_mem _ hapart hword (Argument.word_le_capacity hsuits)

/-- The instruction of a statement stands for a command with the arguments of the statement. -/
theorem exists_command_of_reads (h : statement.Reads ramSize labels entry arguments) :
    ∃ rd rs immediate packed,
      (entry.build (arguments.map Argument.word)).command? =
        some (entry.operation.command rd rs immediate packed) ∧
      (entry.operation.command rd rs immediate packed).arguments = arguments := by
  have hopcode : (entry.build (arguments.map Argument.word)).opcode = entry.opcode :=
    Instruction.opcode_fill ..
  have hentry := Entry.ofOpcode?_opcode entry h.selects.listed
  rw [← hopcode] at hentry
  obtain ⟨rd, rs, hrd, hrs, hcommand⟩ :=
    Instruction.exists_command hentry h.encodable.1 h.encodable.2
  refine ⟨rd, rs, _, _, hcommand, ?_⟩
  rw [Entry.arguments_command rd rs _ _ entry h.selects.listed, ← List.forall₂_eq_eq_eq,
    List.forall₂_map_left_iff]
  refine List.forall₂_iff_zip.mpr ⟨h.suits.length_eq, ?_⟩
  intro operand argument hmem
  have hsuits := (List.forall₂_iff_zip.mp h.suits).2 hmem
  exact argument_eq_of_get hsuits (get_build_of_reads h hmem) hrd hrs

/-- A statement that reads as an instruction says the commands of its entry with its arguments. -/
theorem says_iff_of_reads (h : statement.Reads ramSize labels entry arguments) {command : Command} :
    statement.Says labels command ↔
      (∃ rd rs immediate packed, command = entry.operation.command rd rs immediate packed) ∧
        command.arguments = arguments := by
  have hlength := Nat.le_of_eq h.selects.count
  have hfst : (entry.operands.zip statement.operands).map Prod.fst = entry.operands :=
    List.map_fst_zip (Nat.le_of_eq h.selects.count.symm)
  have hsnd : (entry.operands.zip statement.operands).map Prod.snd = statement.operands :=
    List.map_snd_zip hlength
  have hmeans := h.means.imp fun _ _ hmeans => hmeans.1
  constructor
  · rintro ⟨hmnemonic, hwritten⟩
    obtain ⟨other, hlisted, rd, rs, immediate, packed, rfl⟩ := Command.exists_entry command
    rw [Entry.mnemonic_command _ _ _ _ other hlisted] at hmnemonic
    have hother := Entry.ofMnemonic?_eq_some.mpr ⟨hlisted, hmnemonic⟩
    obtain rfl : other = entry := Option.some.inj (hother.symm.trans h.selects.ofMnemonic?_eq)
    refine ⟨⟨rd, rs, immediate, packed, rfl⟩, ?_⟩
    rw [Entry.arguments_command _ _ _ _ other hlisted] at hwritten ⊢
    generalize other.operands.zip statement.operands = pairs at hfst hsnd hmeans
    rw [← hsnd, ← hfst, List.forall₂_map_left_iff, List.forall₂_map_right_iff,
      List.forall₂_map_right_iff, List.forall₂_same] at hwritten
    have hargument : ∀ operand ∈ pairs, argument? labels operand.1 operand.2 =
        some (operand.1.argument rd rs immediate packed) := fun operand hoperand =>
      argument?_eq_some.mpr ⟨Operand.isOf_argument .., hwritten operand hoperand⟩
    rw [← hfst, List.map_map, ← List.forall₂_eq_eq_eq, List.forall₂_map_left_iff]
    refine ((List.forall₂_and_left _ _).mpr ⟨hargument, hmeans⟩).imp ?_
    rintro operand argument ⟨hread, hmeans⟩
    exact Option.some.inj (hread.symm.trans hmeans)
  · rintro ⟨⟨rd, rs, immediate, packed, rfl⟩, rfl⟩
    refine ⟨?_, ?_⟩
    · rw [Entry.mnemonic_command _ _ _ _ entry h.selects.listed]
      exact h.selects.mnemonic
    · rw [← hsnd, List.forall₂_map_left_iff]
      exact hmeans.imp fun _ _ hargument => (argument?_eq_some.mp hargument).2

end WordMachine.Assembly
