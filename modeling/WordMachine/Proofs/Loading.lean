import WordMachine.Proofs.Assembly.Blame
import WordMachine.Proofs.Assembly.Bounds
import WordMachine.Proofs.Isa.Image
import WordMachine.Proofs.Machine.Arising

/-! Assembled programs can be loaded, as words or as an image, into every machine that has room for
them. -/
namespace WordMachine

open Assembly (Cause Drafting Program assemble statements)
open Isa (Instruction)
open Machine (Bank Config State)

namespace Machine.State

/-- An image is loaded as its words are. -/
theorem loadImage_bytes (config : Config) (words : List CodeWord) :
    loadImage config (Isa.Image.bytes words) = (load config words).mapError .load := by
  rw [loadImage, Isa.Image.words_eq_ok.mpr rfl]
  rfl

end Machine.State

section Program

variable {ramSize : Nat} {source : List Char} {program : Program}

theorem length_words_of_assemble (h : assemble ramSize source = .ok program) :
    program.words.length = program.size :=
  (Assembly.fulfils_of_assemble h).2.2.length_eq.symm

/-- The instructions of a program are what its words say. -/
private theorem decode_words_of_assemble (h : assemble ramSize source = .ok program) :
    program.words.map .decode = program.instructions := by
  obtain ⟨-, -, hwords⟩ := Assembly.fulfils_of_assemble h
  have hdecoded : List.Forall₂ Eq program.instructions (program.words.map .decode) :=
    List.forall₂_map_right_iff.mpr
      (hwords.imp fun _ _ hword => (Instruction.decode_of_encode hword).symm)
  rw [List.forall₂_eq_eq_eq] at hdecoded
  exact hdecoded.symm

end Program

/-- Whatever the source, assembly blames nothing on the encoding and patches only what is there.
What it gives is as large as it says, decodes to its instructions and has its labels in order, and
every machine with room for it starts with it in program memory. -/
theorem encodable_and_loadable (ramSize : Nat) (source : List Char) :
    (∀ error, assemble ramSize source = .error error →
      ∀ cause, error.cause ≠ .unencodable cause) ∧
    (∀ draft front opened rest middle,
      (statements source).forM Drafting.read (.blank ramSize) = .ok () draft →
      draft.openOperands.toList = front ++ opened :: rest →
      front.forM Drafting.patch draft = .ok () middle →
        opened.index < middle.placed.size) ∧
    ∀ program, assemble ramSize source = .ok program →
      program.size ≤ 0x10000 ∧
      program.words.length = program.size ∧
      program.image.length = 4 * program.size ∧
      program.summary = s!"{program.size} instructions, {program.image.length} bytes" ∧
      program.words.map .decode = program.instructions ∧
      program.labels.map Assembly.Label.name = (statements source).flatMap (·.labels) ∧
      (∀ label ∈ program.labels, label.index ≤ min program.size 0xffff) ∧
      (program.labels.Pairwise fun label later => label.index ≤ later.index) ∧
      ∀ config : Config, config.check = .ok () →
        (program.size ≤ config.romSize → ∃ state,
          State.load config program.words = .ok state ∧
          State.loadImage config program.image = .ok state ∧
          state.rom = ⟨.rom, (program.words ++
            List.replicate (config.romSize - program.size) 0).toArray⟩) ∧
        (config.romSize < program.size →
          State.load config program.words = .error (.tooLong program.size config.romSize) ∧
          State.loadImage config program.image =
            .error (.load (.tooLong program.size config.romSize))) := by
  refine ⟨fun error h => Assembly.isOfSource_of_assemble h, ?_, ?_⟩
  · intro draft front opened rest middle hread hopen hpatch
    exact Assembly.index_lt_of_patch hread hopen hpatch
  intro program h
  have hlength := length_words_of_assemble h
  have himage : program.image.length = 4 * program.size := by
    rw [Program.image, Isa.Image.length_bytes, hlength, Nat.mul_comm]
    rfl
  have hsummary : program.summary =
      s!"{program.size} instructions, {program.image.length} bytes" := by
    rw [Program.summary, Program.byteSize, himage, Nat.mul_comm]
    rfl
  obtain ⟨hsize, hindices⟩ := Assembly.bounds_of_assemble h
  obtain ⟨hnames, hsorted⟩ := Assembly.labels_sorted_of_assemble h
  refine ⟨hsize, hlength, himage, hsummary, decode_words_of_assemble h, hnames, hindices, hsorted,
    ?_⟩
  intro config hcheck
  -- The bytes are read back as the words, and from there on there is only one way to load.
  rw [← hlength, Program.image, State.loadImage_bytes]
  constructor
  · intro hfits
    rw [State.load_of_le hcheck hfits]
    exact ⟨_, rfl, rfl, rfl⟩
  · intro hlong
    rw [State.load_of_lt hcheck hlong]
    exact ⟨rfl, rfl⟩

/-- A jump to a label behind it, a machine with room for one instruction more, and one with room for
one less. -/
theorem encodable_and_loadable_forward :
    let source := "jmpi [end]; end: hlt".toList
    let config : Config := { ramSize := 8, romSize := 3 }
    ∃ program state, assemble 8 source = .ok program ∧ program.image.length = 8 ∧
      State.load config program.words = .ok state ∧
      State.loadImage config program.image = .ok state ∧
      state.rom.cells = #[0x10015, 0xff, 0] ∧
      State.loadImage { config with romSize := 1 } program.image = .error (.load (.tooLong 2 1)) := by
  intro source config
  let program : Program :=
    ⟨[{ opcode := 0x15, immediate := 1 }, { opcode := 0xff }], [⟨"end".toList, 1⟩], [0x10015, 0xff]⟩
  have hassemble : assemble 8 source = .ok program := by
    decide +kernel
  obtain ⟨-, -, hprogram⟩ := encodable_and_loadable 8 source
  obtain ⟨-, -, himage, -, -, -, -, -, hconfig⟩ := hprogram program hassemble
  obtain ⟨state, hload, hloadImage, hrom⟩ := (hconfig config rfl).1 (by decide)
  obtain ⟨-, hlong⟩ := (hconfig { config with romSize := 1 } rfl).2 (by decide)
  exact ⟨program, state, hassemble, himage, hload, hloadImage, congrArg Bank.cells hrom, hlong⟩

end WordMachine
