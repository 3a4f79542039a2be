import WordMachine.CommandLine.Session
import WordMachine.Proofs.CommandLine.Path
import WordMachine.Proofs.Loading

/-! Sessions on a system: a source and the image that it is assembled into run alike. The system is
a parameter, with what is relied on as laws of its files. -/
namespace WordMachine.CommandLine

open Assembly (Program)
open Machine (Config State)
open CommandLine.Path (lastPart)

section System

variable {σ : Type} [Host (StateM σ)]

def fileAt (path : String) (system : σ) : Except String (List UInt8) :=
  ((Host.readFile path : StateM σ _) system).1

/-- Whether a file could be written, and the system behind that. -/
def stored (path : String) (content : List UInt8) (system : σ) : Except String Unit × σ :=
  (Host.writeFile path content : StateM σ _) system

def printed (text : String) (system : σ) : σ :=
  ((Host.print text : StateM σ Unit) system).2

def failed (failure : Failure) (system : σ) : σ :=
  ((Host.complain s!"Error: {failure.message}\n" : StateM σ Unit) system).2

/-- What a command comes to without a log: the exit code and the system behind it. -/
def outcome (horizon : Nat) (invocation : Invocation) (system : σ) : UInt8 × σ :=
  (execute false horizon invocation : StateM σ UInt8) system

/-- What the commands rely on in a source and its image: reading one of them changes nothing,
printing changes neither, and what is written to the image is read from it and leaves the source
alone. -/
structure Separate (σ : Type) [Host (StateM σ)] (source image : String) : Prop where
  reading : ∀ path ∈ [source, image], ∀ system : σ,
    ((Host.readFile path : StateM σ _) system).2 = system
  printing : ∀ path ∈ [source, image], ∀ text, ∀ system : σ,
    fileAt path (printed text system) = fileAt path system
  written : ∀ content, ∀ system after : σ,
    stored image content system = (.ok (), after) → fileAt image after = .ok content
  kept : ∀ content, ∀ system after : σ,
    stored image content system = (.ok (), after) → fileAt source after = fileAt source system

def sourceAt (path : String) (system : σ) : Except Failure (List Char) := do
  let content ← (fileAt path system).mapError (.unreadable path)
  match String.fromUTF8? content.toByteArray with
  | some text => return text.toList
  | none => throw (.unreadable path "stream did not contain valid UTF-8")

def programAt (path : String) (ramSize : Nat) (system : σ) : Except Failure Program := do
  (Assembly.assemble ramSize (← sourceAt path system)).mapError (.assembly path)

end System

def assembledLine (source image : String) (program : Program) : String :=
  s!"Assembled {source} ({program.summary}) to {image}\n"

variable {σ : Type} {system after : σ} {path : String} {ramSize : Nat} {program : Program}

section Program

variable [Host (StateM σ)]

private theorem programAt_congr (h : fileAt path after = fileAt path system) (ramSize : Nat) :
    programAt path ramSize after = programAt path ramSize system := by
  unfold programAt sourceAt
  rw [h]

private theorem exists_source_of_programAt (h : programAt path ramSize system = .ok program) :
    ∃ source, Assembly.assemble ramSize source = .ok program := by
  obtain ⟨source, -, hassemble⟩ := outcome_bind_eq_ok.mp h
  exact ⟨source, mapError_eq_ok.mp hassemble⟩

end Program

private theorem bind_apply {α β : Type} {first : StateM σ α} {rest : α → StateM σ β} {value : α}
    (h : first system = (value, after)) : (first >>= rest) system = rest value after := by
  change rest (first system).1 (first system).2 = _
  rw [h]

namespace Session

/-- What a session comes to on a system. -/
def within {α : Type} (session : Session (StateM σ) α) (system : σ) : Except Failure α × σ :=
  session system

section Bind

variable {α β : Type}

private theorem within_bind (first : Session (StateM σ) α) (rest : α → Session (StateM σ) β)
    (system : σ) : within (first >>= rest) system =
      match within first system with
      | (.ok value, after) => within (rest value) after
      | (.error failure, after) => (.error failure, after) := by
  change ExceptT.bindCont rest (within first system).1 (within first system).2 = _
  rcases within first system with ⟨failure | value, after⟩ <;> rfl

private theorem within_lift (work : StateM σ α) (system : σ) :
    within (ExceptT.lift work) system = (.ok (work system).1, (work system).2) :=
  rfl

private theorem within_orFail {ε : Type} (failure : ε → Failure) (outcome : Except ε α)
    (system : σ) : within (orFail failure outcome) system =
      (outcome.mapError failure, system) := by
  cases outcome <;> rfl

end Bind

variable [Host (StateM σ)]

section Work

private theorem within_readFile (hreading : ((Host.readFile path : StateM σ _) system).2 = system) :
    within (readFile path) system = ((fileAt path system).mapError (.unreadable path), system) := by
  unfold readFile
  rw [within_bind, within_lift, hreading]
  exact within_orFail _ _ system

/-- Without a level nothing is logged. -/
private theorem within_log (horizon : Nat) (records : List LogRecord) (system : σ) :
    within (log ⟨none, horizon⟩ records) system = (.ok (), system) := by
  have hnone : (records.filter fun record =>
      ({ threshold := none } : Journal LogRecord).admits record.level) = [] :=
    List.filter_eq_nil_iff.mpr fun _ _ => nofun
  unfold log
  dsimp only
  rw [hnone]
  rfl

private theorem within_readText (hreading : ((Host.readFile path : StateM σ _) system).2 = system) :
    within (readText path) system = (sourceAt path system, system) := by
  unfold readText sourceAt
  rw [within_bind, within_readFile hreading]
  cases fileAt path system with
  | error error => rfl
  | ok content =>
    dsimp only [Except.mapError, bind, Except.bind]
    cases String.fromUTF8? content.toByteArray <;> rfl

private theorem within_programOf
    (hreading : ((Host.readFile path : StateM σ _) system).2 = system) (horizon ramSize : Nat) :
    within (programOf ⟨none, horizon⟩ path ramSize) system =
      (programAt path ramSize system, system) := by
  unfold programOf programAt Assembly.assemble
  rw [within_bind, within_readText hreading]
  cases sourceAt path system with
  | error error => rfl
  | ok source =>
    change _ = (Except.mapError (Failure.assembly path)
      (Assembly.assembleWith none ramSize source).1, system)
    dsimp only
    rw [within_bind, within_log]
    dsimp only
    rw [within_bind, within_orFail]
    cases (Assembly.assembleWith none ramSize source).1 with
    | error error => rfl
    | ok program =>
      dsimp only [Except.mapError]
      rw [within_bind, within_log]
      rfl

end Work

section Runs

variable {stem : String} {options : RunOptions} {trace : Bool}

private theorem within_load_source (hpart : lastPart stem.toList ≠ [])
    (hreading : ((Host.readFile (stem ++ ".asm") : StateM σ _) system).2 = system)
    (horizon : Nat) (config : Config) :
    within (load ⟨none, horizon⟩ (stem ++ ".asm") config) system =
      ((programAt (stem ++ ".asm") config.ramSize system).bind fun program =>
        (State.load config program.words).mapError .load, system) := by
  unfold load
  rw [if_pos (Path.hasExtension_asm hpart), within_bind, within_programOf hreading]
  cases programAt (stem ++ ".asm") config.ramSize system with
  | error failure => rfl
  | ok program => exact within_orFail _ _ system

/-- A source and its image make the same machine. -/
private theorem within_load_image (hpart : lastPart stem.toList ≠ [])
    (hfiles : Separate σ (stem ++ ".asm") (stem ++ ".bin")) (horizon : Nat)
    (hprogram : programAt (stem ++ ".asm") ramSize system = .ok program)
    (himage : fileAt (stem ++ ".bin") system = .ok program.image)
    (hcheck : ({ ramSize, trace } : Config).check = .ok ()) :
    within (load ⟨none, horizon⟩ (stem ++ ".bin") { ramSize, trace }) system =
      within (load ⟨none, horizon⟩ (stem ++ ".asm") { ramSize, trace }) system := by
  have hreading := hfiles.reading (stem ++ ".bin") (by simp) system
  rw [within_load_source hpart (hfiles.reading _ List.mem_cons_self system), hprogram]
  unfold load
  rw [if_neg (Bool.eq_false_iff.mp (Path.hasExtension_bin hpart)), within_bind,
    within_readFile hreading, himage]
  dsimp only [Except.mapError]
  rw [within_orFail, Program.image, State.loadImage_bytes]
  -- What was assembled fits, so that neither way of loading can refuse it.
  have hfits : program.words.length ≤ ({ ramSize, trace } : Config).romSize := by
    obtain ⟨source, hassemble⟩ := exists_source_of_programAt hprogram
    rw [length_words_of_assemble hassemble]
    exact (Assembly.bounds_of_assemble hassemble).1
  dsimp only [Except.bind]
  rw [State.load_of_le hcheck hfits]
  rfl

/-- A run only depends on its program by the machine that is made for it. -/
private theorem within_run_congr (setup : Setup) {path other : String}
    (hload : ∀ trace, ({ ramSize := options.ramSize, trace } : Config).check = .ok () →
      within (load setup path { ramSize := options.ramSize, trace }) system =
        within (load setup other { ramSize := options.ramSize, trace }) system) :
    within (run setup { options with program := path }) system =
      within (run setup { options with program := other }) system := by
  unfold run
  dsimp only
  rw [within_bind, within_bind, within_orFail]
  cases h : ({ ramSize := options.ramSize, trace := options.trace } : Config).check with
  | error error => rfl
  | ok _ =>
    dsimp only [Except.mapError]
    rw [within_bind, within_bind, hload options.trace h]

/-- A source that has no program is not run. -/
private theorem within_run_of_error (hpart : lastPart stem.toList ≠ [])
    (hreading : ((Host.readFile (stem ++ ".asm") : StateM σ _) system).2 = system)
    (horizon : Nat) {failure : Failure}
    (hprogram : programAt (stem ++ ".asm") options.ramSize system = .error failure)
    (hcheck : ({ ramSize := options.ramSize, trace := options.trace } : Config).check = .ok ()) :
    within (run ⟨none, horizon⟩ { options with program := stem ++ ".asm" }) system =
      (.error failure, system) := by
  unfold run
  dsimp only
  rw [within_bind, within_orFail, hcheck]
  dsimp only [Except.mapError]
  rw [within_bind, within_load_source hpart hreading, hprogram]
  rfl

/-- A program that a source has is written to the path that its image has by default. -/
private theorem within_assemble (hreading : ((Host.readFile path : StateM σ _) system).2 = system)
    (horizon : Nat) (hprogram : programAt path ramSize system = .ok program) :
    let image := Path.withExtension path "bin"
    within (assemble ⟨none, horizon⟩ path none ramSize) system =
      match stored image program.image system with
      | (.ok (), after) => (.ok (), printed (assembledLine path image program) after)
      | (.error reason, after) => (.error (.unwritable image reason), after) := by
  intro image
  have hwrite : within (ExceptT.lift (Host.writeFile image program.image)) system =
      (.ok (stored image program.image system).1, (stored image program.image system).2) :=
    within_lift _ system
  unfold assemble
  dsimp only [Option.getD_none]
  rw [within_bind, within_programOf hreading, hprogram]
  dsimp only
  rw [within_bind, hwrite]
  dsimp only
  rw [within_bind, within_orFail]
  rcases stored image program.image system with ⟨reason | _, after⟩ <;> rfl

private theorem within_assemble_of_error
    (hreading : ((Host.readFile path : StateM σ _) system).2 = system) (horizon : Nat)
    (output : Option String) {failure : Failure}
    (hprogram : programAt path ramSize system = .error failure) :
    within (assemble ⟨none, horizon⟩ path output ramSize) system = (.error failure, system) := by
  unfold assemble
  rw [within_bind, within_programOf hreading, hprogram]

end Runs

end Session

section Outcome

variable [Host (StateM σ)]

private theorem outcome_eq (horizon debug : Nat) (command : Command) (system : σ) :
    outcome horizon ⟨debug, command⟩ system =
      match Session.within (Session.perform ⟨none, horizon⟩ command) system with
      | (.ok code, after) => (code, after)
      | (.error failure, after) => (1, failed failure after) := by
  rcases hwithin : Session.within (Session.perform ⟨none, horizon⟩ command) system with
    ⟨failure | code, after⟩ <;>
  exact bind_apply hwithin

/-- A program that a source has is written to the path that its image has by default. -/
private theorem outcome_assemble (hreading : ((Host.readFile path : StateM σ _) system).2 = system)
    (hprogram : programAt path ramSize system = .ok program) (horizon debug : Nat) :
    let image := Path.withExtension path "bin"
    outcome horizon ⟨debug, .assemble path none ramSize⟩ system =
      match stored image program.image system with
      | (.ok (), after) => (0, printed (assembledLine path image program) after)
      | (.error reason, after) => (1, failed (.unwritable image reason) after) := by
  intro image
  rw [outcome_eq, Session.perform, Session.within_bind,
    Session.within_assemble hreading horizon hprogram]
  rcases stored image program.image system with ⟨reason | _, after⟩ <;> rfl

private theorem outcome_assemble_of_error
    (hreading : ((Host.readFile path : StateM σ _) system).2 = system) {failure : Failure}
    (hprogram : programAt path ramSize system = .error failure) (horizon debug : Nat) :
    outcome horizon ⟨debug, .assemble path none ramSize⟩ system = (1, failed failure system) := by
  rw [outcome_eq, Session.perform, Session.within_bind,
    Session.within_assemble_of_error hreading horizon none hprogram]

/-- Wherever the image of a source holds its program, both run alike. -/
private theorem outcome_run_image {stem : String} (hpart : lastPart stem.toList ≠ [])
    (hfiles : Separate σ (stem ++ ".asm") (stem ++ ".bin"))
    (hprogram : programAt (stem ++ ".asm") ramSize system = .ok program)
    (himage : fileAt (stem ++ ".bin") system = .ok program.image) (horizon debug : Nat)
    (options : RunOptions) (hramSize : options.ramSize = ramSize) :
    outcome horizon ⟨debug, .run { options with program := stem ++ ".bin" }⟩ system =
      outcome horizon ⟨debug, .run { options with program := stem ++ ".asm" }⟩ system := by
  rw [outcome_eq, outcome_eq, Session.perform, Session.perform]
  rw [Session.within_run_congr _ fun trace hcheck => ?_]
  refine Session.within_load_image hpart hfiles horizon ?_ himage hcheck
  rw [hramSize, hprogram]

/-- A source without a program fails to run. -/
private theorem outcome_run_of_error {stem : String} (hpart : lastPart stem.toList ≠ [])
    (hreading : ((Host.readFile (stem ++ ".asm") : StateM σ _) system).2 = system)
    {failure : Failure} (hprogram : programAt (stem ++ ".asm") ramSize system = .error failure)
    (hvalid : 1 ≤ ramSize ∧ ramSize ≤ Machine.maxRamSize) (horizon debug : Nat)
    (options : RunOptions) (hramSize : options.ramSize = ramSize) :
    outcome horizon ⟨debug, .run { options with program := stem ++ ".asm" }⟩ system =
      (1, failed failure system) := by
  subst hramSize
  have hrom : 1 ≤ Isa.maxProgramLength := by decide
  have hcheck : ({ ramSize := options.ramSize, trace := options.trace } : Config).check = .ok () :=
    Config.check_eq_ok.mpr ⟨hvalid, hrom, Nat.le_refl _⟩
  rw [outcome_eq, Session.perform,
    Session.within_run_of_error hpart hreading horizon hprogram hcheck]

/-- What stands in front of the extension of a source: its file name has a stem, which is not a
single point. -/
structure IsStem (stem : String) : Prop where
  part : lastPart stem.toList ≠ []
  point : lastPart stem.toList ≠ ['.']

/-- Assembling a source writes its program beside it, if the system lets it, and that image then
runs as the source does: with any options and the same size of data memory both print the same,
complain of the same and end with the same exit code. Without a program both commands fail alike,
and nothing is written. -/
theorem image_runs_as_source {stem : String} {ramSize : Nat} (hstem : IsStem stem)
    (hfiles : Separate σ (stem ++ ".asm") (stem ++ ".bin"))
    (hvalid : 1 ≤ ramSize ∧ ramSize ≤ Machine.maxRamSize) (horizon debug : Nat) (system : σ) :
    let source := stem ++ ".asm"
    let image := stem ++ ".bin"
    let assembling := outcome horizon ⟨debug, .assemble source none ramSize⟩ system
    match programAt source ramSize system with
    | .ok program =>
      match stored image program.image system with
      | (.ok (), written) =>
        let after := printed (assembledLine source image program) written
        assembling = (0, after) ∧ fileAt image after = .ok program.image ∧
          ∀ (debug : Nat) (options : RunOptions), options.ramSize = ramSize →
            outcome horizon ⟨debug, .run { options with program := image }⟩ after =
              outcome horizon ⟨debug, .run { options with program := source }⟩ after
      | (.error reason, after) => assembling = (1, failed (.unwritable image reason) after)
    | .error failure =>
      assembling = (1, failed failure system) ∧
        ∀ (debug : Nat) (options : RunOptions), options.ramSize = ramSize →
          outcome horizon ⟨debug, .run { options with program := source }⟩ system =
            (1, failed failure system) := by
  intro source image assembling
  have hreading := hfiles.reading source List.mem_cons_self system
  have himage : image ∈ [source, image] := List.mem_cons_of_mem _ List.mem_cons_self
  cases hprogram : programAt source ramSize system with
  | ok program =>
    have hassemble := outcome_assemble hreading hprogram horizon debug
    dsimp only at hassemble ⊢
    rw [Path.withExtension_asm hstem.part hstem.point] at hassemble
    rcases hstored : stored image program.image system with ⟨reason | _, written⟩
    · rw [hstored] at hassemble
      exact hassemble
    · rw [hstored] at hassemble
      let after := printed (assembledLine source image program) written
      have hkept : fileAt source after = fileAt source system :=
        (hfiles.printing source List.mem_cons_self _ written).trans (hfiles.kept _ _ _ hstored)
      have hwritten : fileAt image after = .ok program.image :=
        (hfiles.printing image himage _ written).trans (hfiles.written _ _ _ hstored)
      -- The source is read once more to be run, and still has its program.
      have hagain := (programAt_congr hkept ramSize).trans hprogram
      exact ⟨hassemble, hwritten, fun debug options =>
        outcome_run_image hstem.part hfiles hagain hwritten horizon debug options⟩
  | error failure =>
    exact ⟨outcome_assemble_of_error hreading hprogram horizon debug, fun debug options =>
      outcome_run_of_error hstem.part hreading hprogram hvalid horizon debug options⟩

/-- Where a single point stands in front of the extension of a source, what is left of its name is
no file name, and this is the path that the image would be written to. -/
theorem outcome_assemble_behind_point {stem : String} (hpoint : lastPart stem.toList = ['.'])
    (hreading : ((Host.readFile (stem ++ ".asm") : StateM σ _) system).2 = system)
    (hprogram : programAt (stem ++ ".asm") ramSize system = .ok program) (horizon debug : Nat) :
    outcome horizon ⟨debug, .assemble (stem ++ ".asm") none ramSize⟩ system =
      match stored (stem ++ ".") program.image system with
      | (.ok (), after) => (0, printed (assembledLine (stem ++ ".asm") (stem ++ ".") program) after)
      | (.error reason, after) => (1, failed (.unwritable (stem ++ ".") reason) after) := by
  have hassemble := outcome_assemble hreading hprogram horizon debug
  rwa [Path.withExtension_asm_of_point hpoint] at hassemble

end Outcome

/-- A system that keeps files by their paths. A path that ends in the name of a directory is none of
a file. -/
structure Shelf where
  files : List (String × List UInt8)
  printed : String := ""
  complaints : String := ""
  deriving DecidableEq

namespace Shelf

def read (shelf : Shelf) (path : String) : Except String (List UInt8) :=
  match shelf.files.lookup path with
  | some content => .ok content
  | none => .error "No such file or directory (os error 2)"

def write (shelf : Shelf) (path : String) (content : List UInt8) : Except String Unit × Shelf :=
  if Path.isDirectoryName (lastPart path.toList) then
    (.error "Is a directory (os error 21)", shelf)
  else
    (.ok (), { shelf with files := (path, content) :: shelf.files })

instance : Host (StateM Shelf) where
  readFile path := return (← get).read path
  writeFile path content := modifyGet fun shelf => shelf.write path content
  print text := modify fun shelf => { shelf with printed := shelf.printed ++ text }
  complain text := modify fun shelf => { shelf with complaints := shelf.complaints ++ text }
  now := return 0
  wait _ := return ()

private theorem files_of_stored {path : String} {content : List UInt8} {shelf after : Shelf}
    (h : stored path content shelf = (.ok (), after)) :
    after.files = (path, content) :: shelf.files := by
  change shelf.write path content = _ at h
  unfold write at h
  split at h
  next => cases h
  next =>
    cases h
    rfl

/-- Two files of a shelf are separate if their paths are different. -/
theorem separate {source image : String} (h : source ≠ image) :
    Separate Shelf source image where
  reading _ _ _ := rfl
  printing _ _ _ _ := rfl
  written content shelf after hstored := by
    change after.read image = _
    rw [read, files_of_stored hstored, List.lookup_cons_self]
  kept content shelf after hstored := by
    change after.read source = shelf.read source
    rw [read, files_of_stored hstored, List.lookup_cons, beq_eq_false_iff_ne.mpr h]
    rfl

end Shelf

/-- A source that lies below a directory, and runs from its image with whatever options. -/
theorem image_runs_as_source_below :
    let source := "tests/files/add.asm"
    let image := "tests/files/add.bin"
    let text := "# a = 10 + 5\nldi a, 10\naddi a, 5   ; store 0x20, a\nhlt\n".toUTF8.toList
    let program : Program :=
      ⟨[{ opcode := 0x02, immediate := 10 }, { opcode := 0x0b, immediate := 5 },
        { opcode := 0x04, immediate := 0x20 }, { opcode := 0xff }], [],
        [0xa0002, 0x5000b, 0x200004, 0xff]⟩
    let shelf : Shelf := { files := [(source, text)] }
    let after : Shelf :=
      { files := [(image, program.image), (source, text)]
        printed :=
          "Assembled tests/files/add.asm (4 instructions, 16 bytes) to tests/files/add.bin\n" }
    programAt source 64 shelf = .ok program ∧
      outcome 1 ⟨0, .assemble source none 64⟩ shelf = (0, after) ∧
      ∀ (debug : Nat) (options : RunOptions), options.ramSize = 64 →
        outcome 1 ⟨debug, .run { options with program := image }⟩ after =
          outcome 1 ⟨debug, .run { options with program := source }⟩ after := by
  intro source image text program shelf after
  have hsource : "tests/files/add" ++ ".asm" = source := by decide +kernel
  have himage : "tests/files/add" ++ ".bin" = image := by decide +kernel
  have hseparate : Separate Shelf ("tests/files/add" ++ ".asm") ("tests/files/add" ++ ".bin") :=
    Shelf.separate (by decide +kernel)
  have hvalid : 1 ≤ 64 ∧ 64 ≤ Machine.maxRamSize := by decide
  have hprogram : programAt source 64 shelf = .ok program := by decide +kernel
  have hstored : stored image program.image shelf = (.ok (), { after with printed := "" }) := by
    decide +kernel
  have hafter :
      printed (assembledLine source image program) { after with printed := "" } = after := by
    decide +kernel
  have hruns := image_runs_as_source ⟨by decide, by decide⟩ hseparate hvalid 1 0 shelf
  dsimp only at hruns
  rw [hsource, himage, hprogram] at hruns
  dsimp only at hruns
  rw [hstored] at hruns
  dsimp only at hruns
  rw [hafter] at hruns
  obtain ⟨hassemble, -, hrun⟩ := hruns
  exact ⟨hprogram, hassemble, hrun⟩

/-- A source whose image has no place: what is left of its name without the extension is no file
name. -/
theorem image_unwritable_behind_points :
    let shelf : Shelf := { files := [("..asm", "hlt".toUTF8.toList)] }
    programAt "..asm" 8 shelf = .ok ⟨[{ opcode := 0xff }], [], [0xff]⟩ ∧
      Path.withExtension "..asm" "bin" = ".." ∧
      outcome 1 ⟨0, .assemble "..asm" none 8⟩ shelf =
        (1, { shelf with
          complaints := "Error: Couldn't write ..: Is a directory (os error 21)\n" }) := by
  decide +kernel

end WordMachine.CommandLine
