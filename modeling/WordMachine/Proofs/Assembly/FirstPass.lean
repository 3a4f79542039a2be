import WordMachine.Proofs.Assembly.Draft

/-! Reading whole statements into a draft, and from that the reading of a source up to the point
where open operands are patched. -/
namespace WordMachine.Assembly

open Isa (Argument Entry Instruction Operand)

/-- Names that can be declared together, next to those that are known. -/
def Declarable (known names : List (List Char)) : Prop :=
  names.Nodup ∧ ∀ name ∈ names, isLabelName name ∧ name ∉ known

theorem declarable_append {known names later : List (List Char)} :
    Declarable known (names ++ later) ↔
      Declarable known names ∧ Declarable (known ++ names) later := by
  simp only [Declarable, List.nodup_append, List.mem_append, not_or]
  constructor
  · rintro ⟨⟨hnames, hlater, hapart⟩, hall⟩
    refine ⟨⟨hnames, fun name hname => hall name (.inl hname)⟩, hlater, fun name hname => ?_⟩
    obtain ⟨hlabel, hknown⟩ := hall name (.inr hname)
    exact ⟨hlabel, hknown, fun h => hapart name h name hname rfl⟩
  · rintro ⟨⟨hnames, hall⟩, hlater, hafter⟩
    refine ⟨⟨hnames, hlater, ?_⟩, ?_⟩
    · rintro name hname _ hmem rfl
      exact (hafter name hmem).2.2 hname
    · rintro name (hname | hname)
      · exact hall name hname
      · exact ⟨(hafter name hname).1, (hafter name hname).2.1⟩

namespace Draft

def names (draft : Draft) : List (List Char) :=
  draft.labels.toList.map Label.name

def declaring (draft : Draft) (names : List (List Char)) : Draft :=
  { draft with labels := draft.labels ++ names.map (Label.mk · draft.placed.size) }

def built (draft : Draft) (statement : Statement) (entry : Entry) : Instruction :=
  .fill { opcode := entry.opcode } <| (entry.operands.zip statement.operands).map
    fun operand => (operand.1, draft.provisional operand.1 operand.2)

def opened (draft : Draft) (statement : Statement) (entry : Entry) : List OpenOperand :=
  (entry.operands.zip statement.operands).flatMap
    fun operand => draft.opens statement.line draft.placed.size operand.1 operand.2

/-- Open operands belong to the next instruction and are no registers. -/
theorem of_mem_opened {draft : Draft} {statement : Statement} {entry : Entry}
    {one : OpenOperand} (h : one ∈ draft.opened statement entry) :
    one.index = draft.placed.size ∧ one.operand.kind ≠ .register := by
  obtain ⟨operand, -, hone⟩ := List.mem_flatMap.mp h
  rw [opens, Option.mem_toList, Option.map_eq_some_iff] at hone
  obtain ⟨name, hpending, rfl⟩ := hone
  refine ⟨rfl, fun hkind => ?_⟩
  rw [pending?, if_pos hkind] at hpending
  cases hpending

def placing (draft : Draft) (statement : Statement) (entry : Entry) : Draft :=
  { draft.opening (draft.opened statement entry) with
    placed := draft.placed.push ⟨statement.line, draft.built statement entry⟩ }

theorem openOperands_placing (draft : Draft) (statement : Statement) (entry : Entry) :
    (draft.placing statement entry).openOperands.toList =
      draft.openOperands.toList ++ draft.opened statement entry := by
  simp [placing, opening]

/-- Whether the instruction of a statement can be placed. -/
structure Accepts (draft : Draft) (statement : Statement) (entry : Entry) : Prop where
  selects : statement.Selects entry
  room : draft.placed.size < Isa.maxProgramLength
  admits : ∀ operand ∈ entry.operands.zip statement.operands, draft.Admits operand.1 operand.2

end Draft

namespace Drafting

variable {draft draft' : Draft} {line : Nat}

private theorem forM_declare_eq_ok (h : draft.Silent) {names : List (List Char)} :
    names.forM (declare line) draft = .ok () draft' ↔
      Declarable draft.names names ∧
        (names ≠ [] → draft.placed.size < Isa.maxProgramLength) ∧
        draft' = draft.declaring names := by
  induction names generalizing draft with
  | nil =>
    have hnone : draft.declaring [] = draft := by
      rw [Draft.declaring, List.map_nil, Array.appendList_nil]
    rw [forM_nil_eq_ok, hnone]
    exact ⟨fun hdraft => ⟨⟨.nil, nofun⟩, nofun, hdraft⟩, fun hdraft => hdraft.2.2⟩
  | cons name names ih =>
    have hdeclaring : { draft with labels := draft.labels.push ⟨name, draft.placed.size⟩ } =
        draft.declaring [name] := by
      rw [Draft.declaring, List.map_singleton, Array.appendList_cons, Array.appendList_nil]
    have hlater : (draft.declaring [name]).declaring names = draft.declaring (name :: names) := by
      simp [Draft.declaring]
    have hnames : (draft.declaring [name]).names = draft.names ++ [name] := by
      simp [Draft.declaring, Draft.names]
    have hsilent : (draft.declaring [name]).Silent := h
    have hone : Declarable draft.names [name] ↔ isLabelName name ∧ name ∉ draft.names := by
      simp [Declarable]
    rw [forM_cons_eq_ok, ← List.singleton_append, declarable_append, hone]
    constructor
    · rintro ⟨middle, hdeclare, hrest⟩
      obtain ⟨hname, hroom, rfl⟩ := (declare_eq_ok h).mp hdeclare
      rw [hdeclaring, ih hsilent, hnames, hlater] at hrest
      exact ⟨⟨hname, hrest.1⟩, fun _ => hroom, hrest.2.2⟩
    · rintro ⟨⟨hname, hnext⟩, hroom, hdraft⟩
      have hroom := hroom (List.cons_ne_nil name names)
      refine ⟨_, (declare_eq_ok h).mpr ⟨hname, hroom, hdeclaring.symm⟩, ?_⟩
      rw [ih hsilent, hnames, hlater]
      exact ⟨hnext, fun _ => hroom, hdraft⟩

private theorem instruction_eq_ok (h : draft.Silent) {statement : Statement}
    {result : Instruction} :
    instruction statement draft = .ok result draft' ↔
      ∃ entry, draft.Accepts statement entry ∧ result = draft.built statement entry ∧
        draft' = draft.opening (draft.opened statement entry) := by
  rw [instruction]
  cases hentry : Entry.ofMnemonic? statement.mnemonic with
  | none =>
    refine ⟨nofun, ?_⟩
    rintro ⟨entry, haccepts, -⟩
    have hsome := haccepts.selects.ofMnemonic?_eq
    rw [hentry] at hsome
    cases hsome
  | some entry =>
    dsimp only
    obtain ⟨hlisted, hmnemonic⟩ := Entry.ofMnemonic?_eq_some.mp hentry
    rw [bind_eq_ok]
    constructor
    · rintro ⟨_, middle, harity, hrest⟩
      obtain ⟨hok, rfl⟩ := orFail_eq_ok.mp harity
      obtain ⟨hcount, hpresent⟩ := checkArity_eq_ok.mp hok
      obtain ⟨index, middle, hindex, hstore⟩ := bind_eq_ok.mp hrest
      obtain ⟨hroom, rfl, rfl⟩ := nextIndex_eq_ok.mp hindex
      obtain ⟨hadmits, hresult, hdraft⟩ := (store_eq_ok h).mp hstore
      exact ⟨entry, ⟨⟨hlisted, hmnemonic, hcount, hpresent⟩, hroom, hadmits⟩, hresult, hdraft⟩
    · rintro ⟨other, ⟨hselects, hroom, hadmits⟩, hresult, hdraft⟩
      obtain rfl : entry = other := Option.some.inj (hentry.symm.trans hselects.ofMnemonic?_eq)
      have harity := checkArity_eq_ok.mpr ⟨hselects.count, hselects.present⟩
      refine ⟨(), draft, orFail_eq_ok.mpr ⟨harity, rfl⟩, bind_eq_ok.mpr ?_⟩
      exact ⟨_, draft, nextIndex_eq_ok.mpr ⟨hroom, rfl, rfl⟩,
        (store_eq_ok h).mpr ⟨hadmits, hresult, hdraft⟩⟩

private theorem place_silent (h : draft.Silent) (instruction : Instruction) :
    place line instruction draft =
      .ok () { draft with placed := draft.placed.push ⟨line, instruction⟩ } := by
  have hget : (get : Drafting Draft) draft = .ok draft draft := rfl
  rw [place, bind_of_ok hget, bind_of_ok (note_silent h _)]
  rfl

theorem read_eq_ok (h : draft.Silent) {statement : Statement} :
    read statement draft = .ok () draft' ↔
      (Declarable draft.names statement.labels ∧
        (statement.labels ≠ [] → draft.placed.size < Isa.maxProgramLength)) ∧
      if statement.hasInstruction then
        ∃ entry, (draft.declaring statement.labels).Accepts statement entry ∧
          draft' = (draft.declaring statement.labels).placing statement entry
      else
        draft' = draft.declaring statement.labels := by
  rw [read, bind_of_ok (note_silent h _), bind_eq_ok]
  have hsilent : (draft.declaring statement.labels).Silent := h
  have hplaced (entry : Entry) : place statement.line
      ((draft.declaring statement.labels).built statement entry)
      ((draft.declaring statement.labels).opening
        ((draft.declaring statement.labels).opened statement entry)) =
      .ok () ((draft.declaring statement.labels).placing statement entry) := by
    refine place_silent ?_ _
    exact hsilent
  constructor
  · rintro ⟨_, middle, hlabels, hbody⟩
    obtain ⟨hdeclarable, hroom, rfl⟩ := (forM_declare_eq_ok h).mp hlabels
    refine ⟨⟨hdeclarable, hroom⟩, ?_⟩
    by_cases hhas : statement.hasInstruction = true
    · rw [if_pos hhas]
      rw [if_pos (show (!statement.body.isEmpty) = true from hhas)] at hbody
      obtain ⟨result, middle, hinstruction, hplace⟩ := bind_eq_ok.mp hbody
      obtain ⟨entry, haccepts, rfl, rfl⟩ := (instruction_eq_ok hsilent).mp hinstruction
      rw [hplaced] at hplace
      exact ⟨entry, haccepts, (EStateM.Result.ok.inj hplace).2.symm⟩
    · rw [if_neg hhas]
      rw [if_neg (show ¬ (!statement.body.isEmpty) = true from hhas)] at hbody
      exact (EStateM.Result.ok.inj hbody).2.symm
  · rintro ⟨⟨hdeclarable, hroom⟩, hbody⟩
    refine ⟨(), _, (forM_declare_eq_ok h).mpr ⟨hdeclarable, hroom, rfl⟩, ?_⟩
    by_cases hhas : statement.hasInstruction = true
    · rw [if_pos hhas] at hbody
      rw [if_pos (show (!statement.body.isEmpty) = true from hhas)]
      obtain ⟨entry, haccepts, rfl⟩ := hbody
      exact bind_eq_ok.mpr ⟨_, _, (instruction_eq_ok hsilent).mpr ⟨entry, haccepts, rfl, rfl⟩,
        hplaced entry⟩
    · rw [if_neg hhas] at hbody
      rw [if_neg (show ¬ (!statement.body.isEmpty) = true from hhas), hbody]
      rfl

/-- A statement that has been read has declared its labels, and placed its instruction if it has
one. -/
theorem cases_of_read (h : draft.Silent) {statement : Statement}
    (hread : read statement draft = .ok () draft') :
    (statement.hasInstruction = true ∧
      ∃ entry, (draft.declaring statement.labels).Accepts statement entry ∧
        draft' = (draft.declaring statement.labels).placing statement entry) ∨
    (¬ statement.hasInstruction = true ∧ draft' = draft.declaring statement.labels) := by
  obtain ⟨-, hbody⟩ := (read_eq_ok h).mp hread
  split at hbody
  next hhas => exact .inl ⟨hhas, hbody⟩
  next hhas => exact .inr ⟨hhas, hbody⟩

end Drafting

end WordMachine.Assembly
