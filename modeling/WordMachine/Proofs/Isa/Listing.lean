import WordMachine.Isa.Listing
import WordMachine.Proofs.Text.Numeral

/-! Listings of images that consist of whole words, and what is left of one without its indices. -/
namespace WordMachine.Isa

/-- The bytes of a word give it back. -/
theorem wordOfBytes_bytesOfWord (word : CodeWord) :
    wordOfBytes (.ofNat (word.toNat % 0x100)) (.ofNat (word.toNat / 0x100 % 0x100))
      (.ofNat (word.toNat / 0x10000 % 0x100)) (.ofNat (word.toNat / 0x1000000)) = word := by
  have hword : word.toNat < 0x100000000 := word.toNat_lt
  apply UInt32.toNat.inj
  simp only [wordOfBytes, UInt32.toNat_ofNat', UInt8.toNat_ofNat']
  omega

namespace Listing

private theorem readingsOnto_bytes (done : List Reading) (words : List CodeWord) :
    readingsOnto done (Image.bytes words) =
      done.reverse ++ words.map fun word => .ok (.decode word) := by
  induction words generalizing done with
  | nil => exact (List.append_nil _).symm
  | cons word words ih =>
    have hcons : readingsOnto done (Image.bytes (word :: words)) =
        readingsOnto (.ok (.decode (wordOfBytes (.ofNat (word.toNat % 0x100))
          (.ofNat (word.toNat / 0x100 % 0x100)) (.ofNat (word.toNat / 0x10000 % 0x100))
          (.ofNat (word.toNat / 0x1000000)))) :: done) (Image.bytes words) := rfl
    rw [hcons, wordOfBytes_bytesOfWord, ih, List.reverse_cons, List.append_assoc]
    rfl

/-- Each word of an image is read. -/
theorem readings_bytes (words : List CodeWord) :
    readings (Image.bytes words) = words.map fun word => .ok (.decode word) :=
  readingsOnto_bytes [] words

def statement (line : List Char) : List Char :=
  (line.dropWhile (· != ' ')).drop 2

/-- A listing as assembly text: on each line without the index and the two blanks behind it. -/
def source (listing : List Char) : List Char :=
  ['\n'].intercalate ((listing.splitOn '\n').map statement)

private theorem statement_line (index : Nat) (reading : Reading) :
    statement (line index reading) = reading.text := by
  have hindex : ∀ c ∈ Text.hexDigits 4 index, (c != ' ') = true := by
    intro c hc
    apply bne_iff_ne.mpr
    rintro rfl
    cases Text.isAlphanum_of_mem_hexDigits hc
  rw [line, statement, List.append_assoc, List.dropWhile_append_of_pos hindex]
  rfl

theorem lineFeed_not_mem_line {index : Nat} {reading : Reading} (h : '\n' ∉ reading.text) :
    '\n' ∉ line index reading := by
  intro hmem
  rcases List.mem_append.mp hmem with hfront | htext
  · rcases List.mem_append.mp hfront with hindex | hblanks
    · cases Text.isAlphanum_of_mem_hexDigits hindex
    · simp at hblanks
  · exact h htext

/-- Lines that end with a line feed are lines that are separated by one, with nothing behind the
last. -/
theorem flatMap_lineFeed (lines : List (List Char)) :
    lines.flatMap (· ++ ['\n']) = ['\n'].intercalate (lines ++ [[]]) := by
  induction lines with
  | nil => rfl
  | cons first rest ih =>
    rw [List.flatMap_cons, ih, List.cons_append, List.intercalate_cons_of_ne_nil (by simp)]

/-- The listing of an image gives back the texts of its instructions. -/
theorem source_text {words : List CodeWord}
    (h : ∀ word ∈ words, '\n' ∉ (Instruction.decode word).text) :
    source (text (Image.bytes words)) =
      ['\n'].intercalate (words.map (fun word => (Instruction.decode word).text) ++ [[]]) := by
  have hlines : ∀ line ∈ lines (Image.bytes words) ++ [[]], '\n' ∉ line := by
    intro line hline
    rcases List.mem_append.mp hline with hfront | hlast
    · rw [lines, readings_bytes] at hfront
      obtain ⟨index, hindex, rfl⟩ := List.mem_mapIdx.mp hfront
      apply lineFeed_not_mem_line
      rw [List.getElem_map]
      exact h _ (List.getElem_mem _)
    · rw [List.mem_singleton.mp hlast]
      exact List.not_mem_nil
  have htexts : (lines (Image.bytes words)).map statement =
      words.map fun word => (Instruction.decode word).text := by
    refine List.ext_getElem (by simp [lines, readings_bytes]) fun index hfront hback => ?_
    simp [lines, readings_bytes, statement_line, Reading.text]
  rw [source, text, flatMap_lineFeed, List.splitOn_intercalate _ hlines (by simp), List.map_append,
    htexts]
  rfl

end Listing

end WordMachine.Isa
