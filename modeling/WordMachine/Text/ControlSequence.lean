/-! Control sequences of terminals, and text without them. A sequence starts with an escape
character; its second character tells where it ends. -/
namespace WordMachine.Text.ControlSequence

def bold : String := "\x1b[1m"

def reset : String := "\x1b[0m"

def isLayout (c : Char) : Bool :=
  c == '\t' || c == '\n' || c == '\x0c' || c == '\r'

/-- What text without control sequences consists of: layout, and all but the controls of ASCII. -/
def isPlain (c : Char) : Bool :=
  isLayout c || 0x20 ≤ c.toNat && c.toNat ≠ 0x7f

/-- Where a text is: outside of sequences, behind an escape character alone or with intermediate
characters, among the parameters behind `[`, in a command behind `]`, in the header of a device
string behind `P` (in front of its parameters, among them, or among its intermediate characters), or
in a string. -/
inductive Mode
  | outside | escape | intermediate | parameters | command
  | device | deviceParameters | deviceIntermediate | string
  deriving DecidableEq

namespace Mode

/-- Whether a character is printed. The first three kinds of sequences let layout through. -/
def prints : Mode → Char → Bool
  | outside, c => isPlain c
  | escape, c | intermediate, c | parameters, c => isLayout c
  | command, _ | device, _ | deviceParameters, _ | deviceIntermediate, _ | string, _ => false

def opened (c : Char) : Mode :=
  match c with
  | '[' => parameters
  | ']' => command
  | 'P' => device
  | 'X' | '^' | '_' => string
  | _ =>
    if 0x20 ≤ c.toNat && c.toNat ≤ 0x2f then intermediate
    else if 0x30 ≤ c.toNat && c.toNat ≤ 0x7e then outside
    else escape

/-- The mode behind a character. An escape character starts anew, cancel and substitute end all
sequences, a bell ends a command, and the byte 9C in the encoding of a character ends a string. A
header ends where its final character stands or where its order is broken, as by a private mark
behind the first parameter. -/
def next (mode : Mode) (c : Char) : Mode :=
  let between (low high : Nat) : Bool := low ≤ c.toNat && c.toNat ≤ high
  if c = '\x1b' then escape
  else if c = '\x18' || c = '\x1a' then outside
  else
    match mode with
    | outside => outside
    | escape => opened c
    | intermediate => if between 0x30 0x7e then outside else intermediate
    | parameters => if between 0x40 0x7e then outside else parameters
    | command => if c = '\x07' then outside else command
    | device =>
      if between 0x20 0x2f then deviceIntermediate
      else if between 0x30 0x3f then deviceParameters
      else if between 0x40 0x7e then string
      else device
    | deviceParameters =>
      if between 0x20 0x2f then deviceIntermediate
      else if between 0x3c 0x7e then string
      else deviceParameters
    | deviceIntermediate => if between 0x30 0x7e then string else deviceIntermediate
    | string => if (String.utf8EncodeChar c).contains 0x9c then outside else string

end Mode

/-- A text that has been read in part: the mode, whether the last character was printed, and what
was printed, the last character first. -/
structure Scan where
  mode : Mode := .outside
  printing : Bool := false
  printed : List Char := []

/-- Reads a character. Once layout within a sequence has been printed, so is all behind it up to the
next control; the sequence goes on there, unless a character outside of ASCII came in between. -/
def Scan.step (scan : Scan) (c : Char) : Scan :=
  if scan.printing && isPlain c then
    ⟨if c.toNat < 0x80 then scan.mode else .outside, true, c :: scan.printed⟩
  else if scan.mode.prints c then
    ⟨scan.mode.next c, true, c :: scan.printed⟩
  else
    ⟨scan.mode.next c, false, scan.printed⟩

def strip (text : List Char) : List Char :=
  (text.foldl Scan.step {}).printed.reverse

private theorem printed_foldl_of_isPlain (text : List Char) (h : ∀ c ∈ text, isPlain c = true)
    (scan : Scan) (outside : scan.mode = .outside) :
    (text.foldl Scan.step scan).printed = text.reverse ++ scan.printed := by
  induction text generalizing scan with
  | nil => rfl
  | cons c text ih =>
    have hc : isPlain c = true := h c (by simp)
    have escaped : c ≠ '\x1b' := by rintro rfl; exact absurd hc (by decide)
    have step : scan.step c = ⟨.outside, true, c :: scan.printed⟩ := by
      simp [Scan.step, outside, hc, Mode.prints, Mode.next, escaped]
    rw [List.foldl_cons, step, ih (fun d hd => h d (by simp [hd])) _ rfl]
    simp

/-- Text without controls stays as it is. -/
theorem strip_of_isPlain {text : List Char} (h : ∀ c ∈ text, isPlain c = true) :
    strip text = text := by
  rw [strip, printed_foldl_of_isPlain text h _ rfl]
  simp

private theorem isPlain_of_mode_prints {mode : Mode} {c : Char} (h : mode.prints c = true) :
    isPlain c = true := by
  cases mode <;> simp_all [Mode.prints, isPlain]

private theorem isPlain_of_mem_printed (text : List Char) (scan : Scan)
    (h : ∀ c ∈ scan.printed, isPlain c = true) :
    ∀ c ∈ (text.foldl Scan.step scan).printed, isPlain c = true := by
  induction text generalizing scan with
  | nil => exact h
  | cons c text ih =>
    refine ih _ ?_
    unfold Scan.step
    split
    · rename_i hc
      simpa using ⟨(Bool.and_eq_true_iff.mp hc).2, h⟩
    · split
      · rename_i hc
        simpa using ⟨isPlain_of_mode_prints hc, h⟩
      · exact h

/-- Nothing but plain characters is left. -/
theorem isPlain_of_mem_strip {text : List Char} {c : Char} (h : c ∈ strip text) :
    isPlain c = true :=
  isPlain_of_mem_printed text {} (by simp) c (by simpa [strip] using h)

end WordMachine.Text.ControlSequence
