import WordMachine.Proofs.Assembly.Printing
import WordMachine.Proofs.Isa.Listing

/-! The readers of images agree. One takes all words at once and refuses an image that ends inside
of a word; the other takes one instruction after the other, and says where the image ends. -/
namespace WordMachine.Isa

/-- A word is made of its bytes. -/
private theorem bytesOfWord_wordOfBytes (b₀ b₁ b₂ b₃ : UInt8) :
    bytesOfWord (wordOfBytes b₀ b₁ b₂ b₃) = [b₀, b₁, b₂, b₃] := by
  have h₀ : b₀.toNat < 0x100 := b₀.toNat_lt
  have h₁ : b₁.toNat < 0x100 := b₁.toNat_lt
  have h₂ : b₂.toNat < 0x100 := b₂.toNat_lt
  have h₃ : b₃.toNat < 0x100 := b₃.toNat_lt
  simp only [bytesOfWord, wordOfBytes, UInt32.toNat_ofNat', List.cons.injEq, and_true]
  refine ⟨UInt8.toNat.inj ?_, UInt8.toNat.inj ?_, UInt8.toNat.inj ?_, UInt8.toNat.inj ?_⟩
  all_goals
    rw [UInt8.toNat_ofNat']
    omega

/-- An instruction has a word exactly when its register fields have four bits, and the word gives
it back. -/
private theorem exists_encode_iff {instruction : Instruction} :
    (∃ word, instruction.encode = .ok word) ↔
      instruction.dest.toNat ≤ 15 ∧ instruction.src.toNat ≤ 15 := by
  constructor
  · rintro ⟨word, hword⟩
    obtain ⟨hdest, hsrc⟩ := Instruction.encodable_of_encode hword
    exact ⟨Nat.le_of_lt_succ hdest, Nat.le_of_lt_succ hsrc⟩
  · rintro ⟨hdest, hsrc⟩
    exact ⟨_, Instruction.encode_of_encodable ⟨Nat.lt_succ_of_le hdest, Nat.lt_succ_of_le hsrc⟩⟩

namespace Image

variable {image : List UInt8}

theorem length_bytes (words : List CodeWord) :
    (bytes words).length = words.length * bytesPerInstruction := by
  induction words with
  | nil => rfl
  | cons word words ih =>
    have hcons : (bytes (word :: words)).length = 4 + (bytes words).length := by
      rw [bytes, List.flatMap_cons, List.length_append]
      rfl
    rw [hcons, ih, List.length_cons, Nat.succ_mul, Nat.add_comm]
    rfl

private theorem wordsOnto_bytes (done words : List CodeWord) :
    wordsOnto done (bytes words) = done.reverse ++ words := by
  induction words generalizing done with
  | nil => exact (List.append_nil _).symm
  | cons word words ih =>
    have hcons : wordsOnto done (bytes (word :: words)) =
        wordsOnto (wordOfBytes (.ofNat (word.toNat % 0x100)) (.ofNat (word.toNat / 0x100 % 0x100))
          (.ofNat (word.toNat / 0x10000 % 0x100)) (.ofNat (word.toNat / 0x1000000)) :: done)
          (bytes words) := rfl
    rw [hcons, wordOfBytes_bytesOfWord, ih, List.reverse_cons, List.append_assoc]
    rfl

private theorem bytes_wordsOnto (done : List CodeWord) (h : bytesPerInstruction ∣ image.length) :
    bytes (wordsOnto done image) = bytes done.reverse ++ image := by
  fun_induction wordsOnto done image with
  | case1 done b₀ b₁ b₂ b₃ rest ih =>
    have hrest : bytesPerInstruction ∣ rest.length := (Nat.dvd_add_left (Nat.dvd_refl 4)).mp h
    rw [ih hrest, List.reverse_cons, bytes, List.flatMap_append, List.flatMap_singleton,
      bytesOfWord_wordOfBytes, List.append_assoc]
    rfl
  | case2 rest done hshort =>
    -- What is left is no whole word, and so it is nothing.
    match rest with
    | [] => exact (List.append_nil _).symm
    | [_] => exact absurd h (show ¬ 4 ∣ 1 by decide)
    | [_, _] => exact absurd h (show ¬ 4 ∣ 2 by decide)
    | [_, _, _] => exact absurd h (show ¬ 4 ∣ 3 by decide)
    | b₀ :: b₁ :: b₂ :: b₃ :: rest => exact (hshort b₀ b₁ b₂ b₃ rest rfl).elim

/-- An image has words exactly when it consists of them. -/
theorem words_eq_ok {found : List CodeWord} : words image = .ok found ↔ bytes found = image := by
  unfold words
  constructor
  · intro h
    split at h
    next hwhole =>
      rw [← Except.ok.inj h, bytes_wordsOnto [] (Nat.dvd_of_mod_eq_zero hwhole)]
      rfl
    next => cases h
  · rintro rfl
    rw [length_bytes, Nat.mul_mod_left, if_pos rfl, wordsOnto_bytes]
    rfl

/-- Whole words are all that an image needs to be read. -/
private theorem exists_words_iff : (∃ found, words image = .ok found) ↔ 4 ∣ image.length := by
  unfold words
  constructor
  · rintro ⟨found, h⟩
    split at h
    next hwhole => exact Nat.dvd_of_mod_eq_zero hwhole
    next => cases h
  · intro hwhole
    exact ⟨_, if_pos (Nat.mod_eq_zero_of_dvd hwhole)⟩

end Image

namespace Listing

/-- What is to be read at an index: an instruction if its four bytes are there, and otherwise why
not. -/
def readingAt (image : List UInt8) (index : Nat) : Reading :=
  if h : 4 * index + 4 ≤ image.length then
    .ok (.decode (wordOfBytes image[4 * index] image[4 * index + 1] image[4 * index + 2]
      image[4 * index + 3]))
  else if 4 * index < image.length then
    .error .incomplete
  else
    .error .atEnd

inductive Request
  | instruction | text
  deriving DecidableEq

inductive Answer
  | reading (reading : Reading)
  | text (text : List Char)
  deriving DecidableEq

def Request.answer (reading : Reading) : Request → Answer
  | instruction => .reading reading
  | text => .text reading.text

/-- The answers to requests, each of which goes on where the one before has ended. -/
def serve : List UInt8 → List Request → List Answer
  | _, [] => []
  | image, request :: rest =>
    let (reading, behind) := next image
    request.answer reading :: serve behind rest

private theorem readingAt_drop (image : List UInt8) (index : Nat) :
    readingAt (image.drop 4) index = readingAt image (index + 1) := by
  unfold readingAt
  simp only [List.length_drop, List.getElem_drop]
  by_cases hwhole : 4 * index + 4 ≤ image.length - 4
  · have hwhole' : 4 * (index + 1) + 4 ≤ image.length := by omega
    simp only [dif_pos hwhole, dif_pos hwhole', show 4 + 4 * index = 4 * (index + 1) by omega,
      ← Nat.add_assoc]
  · have hshort : ¬ 4 * (index + 1) + 4 ≤ image.length := by omega
    have hpart : 4 * index < image.length - 4 ↔ 4 * (index + 1) < image.length := by omega
    simp only [dif_neg hwhole, dif_neg hshort, hpart]

/-- A request is answered by the first reading and goes on behind its bytes. -/
private theorem next_eq (image : List UInt8) : next image = (readingAt image 0, image.drop 4) := by
  match image with
  | [] | [_] | [_, _] | [_, _, _] => rfl
  | b₀ :: b₁ :: b₂ :: b₃ :: rest =>
    have hwhole : 4 * 0 + 4 ≤ (b₀ :: b₁ :: b₂ :: b₃ :: rest).length := Nat.le_add_left 4 rest.length
    rw [readingAt, dif_pos hwhole]
    rfl

/-- However many requests there are, each is answered by what stands at its index. -/
private theorem serve_eq (image : List UInt8) (requests : List Request) :
    serve image requests =
      requests.mapIdx fun index request => request.answer (readingAt image index) := by
  induction requests generalizing image with
  | nil => rfl
  | cons request rest ih =>
    rw [serve, next_eq, List.mapIdx_cons]
    simp only [ih, readingAt_drop]

def count (image : List UInt8) : Nat :=
  (image.length + 3) / 4

private theorem readingsOnto_eq (done : List Reading) (image : List UInt8) :
    readingsOnto done image =
      done.reverse ++ (List.range (count image)).map (readingAt image) := by
  fun_induction readingsOnto done image with
  | case1 done => exact (List.append_nil _).symm
  | case2 done b₀ b₁ b₂ b₃ rest ih =>
    have hcount : count (b₀ :: b₁ :: b₂ :: b₃ :: rest) = count rest + 1 := by
      simp only [count, List.length_cons]
      omega
    have hfirst : readingAt (b₀ :: b₁ :: b₂ :: b₃ :: rest) 0 =
        .ok (.decode (wordOfBytes b₀ b₁ b₂ b₃)) :=
      (congrArg Prod.fst (next_eq (b₀ :: b₁ :: b₂ :: b₃ :: rest))).symm
    rw [ih, hcount, List.range_succ_eq_map, List.map_cons, List.map_map, hfirst, List.reverse_cons,
      List.append_assoc, List.singleton_append]
    congr 2
    exact List.map_congr_left fun index _ => readingAt_drop (b₀ :: b₁ :: b₂ :: b₃ :: rest) index
  | case3 rest done hne hshort =>
    match rest with
    | [] => exact (hne rfl).elim
    | [_] | [_, _] | [_, _, _] => simp [count, readingAt]
    | b₀ :: b₁ :: b₂ :: b₃ :: rest => exact (hshort b₀ b₁ b₂ b₃ rest rfl).elim

/-- The readings of an image are those of its words, and of a partial one at the end. -/
private theorem readings_eq (image : List UInt8) :
    readings image = (List.range (count image)).map (readingAt image) :=
  readingsOnto_eq [] image

/-- What is read as a whole is read without an error. -/
private theorem instructions_eq_ok {image : List UInt8} {found : List Instruction} :
    instructions image = .ok found ↔ readings image = found.map .ok := by
  unfold instructions
  induction readings image generalizing found with
  | nil =>
    change Except.ok [] = Except.ok found ↔ _
    rw [Except.ok.injEq, eq_comm, eq_comm (a := []), List.map_eq_nil_iff]
  | cons reading rest ih =>
    rw [List.mapM_cons]
    cases reading with
    | error error =>
      cases found <;> exact ⟨nofun, nofun⟩
    | ok instruction =>
      change Except.bind (rest.mapM id) (fun values => .ok (instruction :: values)) = _ ↔ _
      cases found with
      | nil =>
        refine ⟨fun h => ?_, nofun⟩
        cases hrest : rest.mapM id <;> rw [hrest] at h <;> cases h
      | cons first found =>
        rw [List.map_cons, List.cons.injEq, Except.ok.injEq, ← ih]
        cases hrest : rest.mapM id with
        | error error => exact ⟨nofun, nofun⟩
        | ok values =>
          change Except.ok (instruction :: values) = Except.ok (first :: found) ↔ _
          rw [Except.ok.injEq, List.cons.injEq, Except.ok.injEq]

/-- Instructions are read from whole words only. -/
private theorem exists_instructions_iff {image : List UInt8} :
    (∃ found, instructions image = .ok found) ↔ 4 ∣ image.length := by
  constructor
  · rintro ⟨found, h⟩
    rw [instructions_eq_ok, readings_eq] at h
    by_contra hpart
    -- At the end there are fewer than four bytes.
    have hlast : image.length / 4 < count image := by
      unfold count
      omega
    have hmem := List.mem_map_of_mem (f := readingAt image) (List.mem_range.mpr hlast)
    rw [h, readingAt, dif_neg (by omega), if_pos (by omega)] at hmem
    obtain ⟨instruction, -, hreading⟩ := List.mem_map.mp hmem
    cases hreading
  · intro hwhole
    obtain ⟨words, hwords⟩ := Image.exists_words_iff.mpr hwhole
    refine ⟨words.map .decode, instructions_eq_ok.mpr ?_⟩
    rw [← Image.words_eq_ok.mp hwords, readings_bytes, List.map_map]
    rfl

private theorem encodable_readingAt (image : List UInt8) (index : Nat) (instruction : Instruction)
    (h : readingAt image index = .ok instruction) : instruction.Encodable := by
  unfold readingAt at h
  split at h
  next =>
    cases h
    exact Instruction.decode_encodable _
  next =>
    split at h <;> cases h

/-- What is read has a text of one line. -/
private theorem lineFeed_not_mem_text {reading : Reading}
    (h : ∀ instruction, reading = .ok instruction → instruction.Encodable) :
    '\n' ∉ reading.text := by
  cases reading with
  | error error => cases error <;> decide
  | ok instruction =>
    change '\n' ∉ instruction.text
    cases hentry : Entry.ofOpcode? instruction.opcode with
    | none =>
      rw [Instruction.text, hentry]
      intro hmem
      rcases List.mem_append.mp hmem with hfront | hlast
      · rcases List.mem_append.mp hfront with hmarker | hopcode
        · revert hmarker
          decide
        · cases Text.isAlphanum_of_mem_hexDigits hopcode
      · revert hlast
        decide
    | some entry =>
      have hlisted := (Entry.ofOpcode?_eq_some.mp hentry).1
      rw [Assembly.text_eq_written hentry]
      refine Assembly.not_mem_written (Assembly.isWord_mnemonic entry hlisted) ?_ rfl
        (by decide) (by decide)
      refine List.forall_mem_map.mpr fun operand _ => ?_
      exact Assembly.isWord_operandText (h instruction rfl) operand

/-- The text of a listing has a line for each reading and nothing behind the last. -/
private theorem splitOn_text (image : List UInt8) : (text image).splitOn '\n' =
    (List.range (count image)).map (fun index => line index (readingAt image index)) ++ [[]] := by
  have hlines : lines image =
      (List.range (count image)).map fun index => line index (readingAt image index) := by
    rw [lines, readings_eq]
    refine List.ext_getElem (by simp) fun index hfront hback => ?_
    simp
  rw [text, flatMap_lineFeed, List.splitOn_intercalate _ ?_ (by simp), hlines]
  intro one hone
  rw [hlines] at hone
  rcases List.mem_append.mp hone with hfront | hlast
  · obtain ⟨index, -, rfl⟩ := List.mem_map.mp hfront
    exact lineFeed_not_mem_line (lineFeed_not_mem_text (encodable_readingAt image index))
  · rw [List.mem_singleton.mp hlast]
    exact List.not_mem_nil

/-- The codec loses nothing, and all readers of an image agree. A partial word at the end is read
as one, and behind it, however often one asks, there is nothing. -/
theorem readers_agree :
    (∀ instruction : Instruction,
      ((∃ word, instruction.encode = .ok word) ↔
        instruction.dest.toNat ≤ 15 ∧ instruction.src.toNat ≤ 15) ∧
      ∀ word, instruction.encode = .ok word → .decode word = instruction) ∧
    (∀ word, (Instruction.decode word).encode = .ok word) ∧
    (∀ words, Image.words (Image.bytes words) = .ok words) ∧
    ∀ image : List UInt8,
      ((∃ words, Image.words image = .ok words) ↔ 4 ∣ image.length) ∧
      ((∃ found, instructions image = .ok found) ↔ 4 ∣ image.length) ∧
      (∀ words, Image.words image = .ok words →
        instructions image = .ok (words.map .decode) ∧ Image.bytes words = image) ∧
      (∀ requests, serve image requests =
        requests.mapIdx fun index request => request.answer (readingAt image index)) ∧
      (text image).splitOn '\n' =
        (List.range ((image.length + 3) / 4)).map (fun index =>
          Text.hexDigits 4 index ++ "  ".toList ++ (readingAt image index).text) ++ [[]] := by
  refine ⟨fun instruction => ⟨exists_encode_iff, fun word => Instruction.decode_of_encode⟩,
    Instruction.encode_decode, fun words => Image.words_eq_ok.mpr rfl, fun image => ?_⟩
  refine ⟨Image.exists_words_iff, exists_instructions_iff, ?_, serve_eq image, splitOn_text image⟩
  intro words hwords
  have hbytes := Image.words_eq_ok.mp hwords
  refine ⟨instructions_eq_ok.mpr ?_, hbytes⟩
  rw [← hbytes, readings_bytes, List.map_map]
  rfl

/-- A jump and one byte more: three requests, of which the last comes behind the end. -/
theorem readers_agree_partial :
    let jump : Instruction := { opcode := 0x15, immediate := 1 }
    let image : List UInt8 := [0x15, 0, 1, 0, 0xff]
    jump.encode = .ok 0x10015 ∧ .decode 0x10015 = jump ∧
      Image.words [0x15, 0, 1, 0] = .ok [0x10015] ∧ instructions [0x15, 0, 1, 0] = .ok [jump] ∧
      (¬ ∃ words, Image.words image = .ok words) ∧
      serve image [.text, .instruction, .text] = [.text "jmpi 1".toList,
        .reading (.error .incomplete), .text "<out of deassembler bounds>".toList] ∧
      (text image).splitOn '\n' =
        ["0000  jmpi 1".toList, "0001  <incomplete instruction>".toList, []] := by
  intro jump image
  obtain ⟨hcodec, -, -, hreaders⟩ := readers_agree
  have hencode : jump.encode = .ok 0x10015 := by decide +kernel
  have hwords : Image.words [0x15, 0, 1, 0] = .ok [0x10015] := by decide +kernel
  obtain ⟨hwhole, -, -, hserve, htext⟩ := hreaders image
  refine ⟨hencode, (hcodec jump).2 0x10015 hencode, hwords,
    ((hreaders [0x15, 0, 1, 0]).2.2.1 [0x10015] hwords).1, ?_, ?_, ?_⟩
  · rw [hwhole]
    decide
  · rw [hserve]
    decide +kernel
  · rw [htext]
    decide +kernel

end Listing

end WordMachine.Isa
