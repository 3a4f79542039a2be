import Mathlib.Data.List.TakeWhile
import WordMachine.CommandLine.Path

/-! Paths with an extension: what stands behind the last point of the last part. -/
namespace WordMachine.CommandLine.Path

def lastPart (path : List Char) : List Char :=
  (path.reverse.takeWhile (· != '/')).reverse

def place (path : List Char) : List Char :=
  (path.reverse.dropWhile (· != '/')).reverse

variable {path stem extension ending : List Char}

private theorem place_append_lastPart (path : List Char) : place path ++ lastPart path = path := by
  rw [place, lastPart, ← List.reverse_append, List.takeWhile_append_dropWhile, List.reverse_reverse]

private theorem reverse_ne_slash (hending : '/' ∉ ending) :
    ∀ c ∈ ending.reverse, (c != '/') = true := by
  intro c hc
  rw [bne_iff_ne]
  rintro rfl
  exact hending (List.mem_reverse.mp hc)

/-- What holds no slash belongs to the last part. -/
private theorem lastPart_append (hending : '/' ∉ ending) :
    lastPart (path ++ ending) = lastPart path ++ ending := by
  rw [lastPart, List.reverse_append, List.takeWhile_append_of_pos (reverse_ne_slash hending),
    List.reverse_append, List.reverse_reverse]
  rfl

private theorem place_append (hending : '/' ∉ ending) : place (path ++ ending) = place path := by
  rw [place, List.reverse_append, List.dropWhile_append_of_pos (reverse_ne_slash hending)]
  rfl

/-- The extension of a name stands behind its last point. -/
private theorem splitName_append (hstem : stem ≠ []) (hextension : '.' ∉ extension)
    (hname : isDirectoryName (stem ++ '.' :: extension) = false) :
    splitName (stem ++ '.' :: extension) = (stem, some extension) := by
  have hpoint : ∀ c ∈ extension.reverse, (c != '.') = true := by
    intro c hc
    rw [bne_iff_ne]
    rintro rfl
    exact hextension (List.mem_reverse.mp hc)
  have hlast : ((stem ++ '.' :: extension).reverse.takeWhile (· != '.')).reverse = extension := by
    rw [List.reverse_append, List.reverse_cons, List.append_assoc,
      List.takeWhile_append_of_pos hpoint, List.reverse_append, List.reverse_reverse]
    rfl
  have hlength : (stem ++ '.' :: extension).length - extension.length - 1 = stem.length := by
    rw [List.length_append, List.length_cons]
    omega
  unfold splitName
  dsimp only
  rw [hlast, hlength, List.take_left, hname, List.isEmpty_eq_false_iff.mpr hstem]
  rfl

private theorem dropClosing_cons {c : Char} {rest : List Char} (hslash : c ≠ '/')
    (hpoint : c ≠ '.' ∨ rest.head? ≠ some '/') : dropClosing (c :: rest) = c :: rest := by
  unfold dropClosing
  split
  next heq => exact absurd (List.cons.inj heq).1 hslash
  next heq =>
    obtain ⟨rfl, rfl⟩ := List.cons.inj heq
    rcases hpoint with hpoint | hhead
    · exact absurd rfl hpoint
    · exact absurd rfl hhead
  next => rfl

private theorem exists_reverse_eq_cons (hpart : lastPart path ≠ []) :
    ∃ c rest, path.reverse = c :: rest ∧ c ≠ '/' := by
  unfold lastPart at hpart
  cases hpath : path.reverse with
  | nil =>
    rw [hpath] at hpart
    exact absurd rfl hpart
  | cons c rest =>
    refine ⟨c, rest, rfl, ?_⟩
    rintro rfl
    rw [hpath] at hpart
    exact absurd rfl hpart

private theorem split_of_dropClosing (h : dropClosing path.reverse = path.reverse) :
    split path = (place path, lastPart path) := by
  rw [split, h]
  rfl

/-- Whether a text can be told as the extension of a path. -/
structure IsExtension (extension : List Char) : Prop where
  ne_nil : extension ≠ []
  no_point : '.' ∉ extension
  no_slash : '/' ∉ extension

private theorem slash_not_mem_cons (h : '/' ∉ extension) : '/' ∉ '.' :: extension := by
  intro hmem
  rcases List.mem_cons.mp hmem with heq | htail
  · exact absurd heq (by decide)
  · exact h htail

/-- The parts of a path with an extension. -/
private theorem split_append (h : IsExtension extension) :
    split (stem ++ '.' :: extension) = (place stem, lastPart stem ++ '.' :: extension) := by
  have hending := slash_not_mem_cons h.no_slash
  rw [← place_append hending, ← lastPart_append hending]
  apply split_of_dropClosing
  rw [List.reverse_append, List.reverse_cons]
  cases hreverse : extension.reverse with
  | nil => exact absurd (List.reverse_eq_nil_iff.mp hreverse) h.ne_nil
  | cons c rest =>
    have hmem : c ∈ extension := List.mem_reverse.mp (hreverse ▸ List.mem_cons_self)
    rw [List.cons_append, List.cons_append]
    refine dropClosing_cons ?_ (.inl ?_)
    · rintro rfl
      exact h.no_slash hmem
    · rintro rfl
      exact h.no_point hmem

/-- The parts of a path without its extension, which is left with its point. -/
private theorem split_append_point (hpart : lastPart stem ≠ []) :
    split (stem ++ ['.']) = (place stem, lastPart stem ++ ['.']) := by
  have hending : '/' ∉ ['.'] := by decide
  rw [← place_append hending, ← lastPart_append hending]
  apply split_of_dropClosing
  obtain ⟨c, rest, hreverse, hslash⟩ := exists_reverse_eq_cons hpart
  rw [List.reverse_append, hreverse]
  refine dropClosing_cons (by decide) (.inr fun hhead => hslash ?_)
  exact Option.some.inj hhead

private theorem isDirectoryName_append (h : IsExtension extension) :
    isDirectoryName (stem ++ '.' :: extension) = false := by
  obtain ⟨c, hc⟩ := List.exists_mem_of_ne_nil extension h.ne_nil
  have hmem : c ∈ stem ++ '.' :: extension :=
    List.mem_append_right stem (List.mem_cons_of_mem _ hc)
  have hpoint : c ≠ '.' := by
    rintro rfl
    exact h.no_point hc
  have hne (name : List Char) (hname : name.all (· == '.')) : stem ++ '.' :: extension ≠ name := by
    intro heq
    exact hpoint (beq_iff_eq.mp (List.all_eq_true.mp hname c (heq ▸ hmem)))
  simp only [isDirectoryName, Bool.or_eq_false_iff, decide_eq_false_iff_not]
  exact ⟨⟨hne [] rfl, hne ['.'] rfl⟩, hne ['.', '.'] rfl⟩

/-- The extension of a path whose last part does not begin with its point. -/
private theorem extension?_append (hpart : lastPart stem ≠ []) (h : IsExtension extension) :
    extension? (stem ++ '.' :: extension) = some extension := by
  rw [extension?, split_append h,
    splitName_append hpart h.no_point (isDirectoryName_append h)]

private theorem hasExtension_append (hpart : lastPart stem ≠ []) (h : IsExtension extension)
    (asked : String) : hasExtension (String.ofList (stem ++ '.' :: extension)) asked =
      (extension.map Char.toLower == asked.toList) := by
  rw [hasExtension, String.toList_ofList, extension?_append hpart h]
  rfl

/-- Another extension takes the place of the old one. If the last part would be left as two points,
it gets none. -/
private theorem withExtension_append (hpart : lastPart stem ≠ []) (h : IsExtension extension)
    (new : String) : withExtension (String.ofList (stem ++ '.' :: extension)) new =
      String.ofList (stem ++ '.' :: if lastPart stem = ['.'] then [] else new.toList) := by
  have hkept : (stem ++ '.' :: extension).take
      ((stem ++ '.' :: extension).length - extension.length) = stem ++ ['.'] := by
    have hlength : (stem ++ '.' :: extension).length - extension.length =
        (stem ++ ['.']).length := by
      simp only [List.length_append, List.length_cons, List.length_nil]
      omega
    rw [hlength, List.append_cons stem '.' extension, List.take_left]
  unfold withExtension
  dsimp only
  rw [String.toList_ofList, extension?_append hpart h, Option.getD_some, hkept,
    split_append_point hpart]
  dsimp only
  by_cases hpoint : lastPart stem = ['.']
  · rw [if_pos hpoint, hpoint]
    rfl
  · have hname : isDirectoryName (lastPart stem ++ ['.']) = false := by
      simp [isDirectoryName, hpart, hpoint, List.append_eq_cons_iff]
    rw [if_neg hpoint, hname, if_neg (by decide), splitName_append hpart List.not_mem_nil hname,
      place_append_lastPart]

section Endings

variable {stem : String}

private theorem append_eq_ofList (stem : String) {ending : String} {extension : List Char}
    (h : ending.toList = '.' :: extension) :
    stem ++ ending = String.ofList (stem.toList ++ '.' :: extension) := by
  rw [← h, ← String.toList_append, String.ofList_toList]

theorem hasExtension_asm (hpart : lastPart stem.toList ≠ []) :
    hasExtension (stem ++ ".asm") "asm" = true := by
  rw [append_eq_ofList stem (by rfl), hasExtension_append hpart ⟨by decide, by decide, by decide⟩]
  decide

theorem hasExtension_bin (hpart : lastPart stem.toList ≠ []) :
    hasExtension (stem ++ ".bin") "asm" = false := by
  rw [append_eq_ofList stem (by rfl), hasExtension_append hpart ⟨by decide, by decide, by decide⟩]
  decide

theorem withExtension_asm (hpart : lastPart stem.toList ≠ [])
    (hpoint : lastPart stem.toList ≠ ['.']) :
    withExtension (stem ++ ".asm") "bin" = stem ++ ".bin" := by
  rw [append_eq_ofList stem (by rfl), append_eq_ofList stem (by rfl),
    withExtension_append hpart ⟨by decide, by decide, by decide⟩, if_neg hpoint]
  rfl

theorem withExtension_asm_of_point (hpoint : lastPart stem.toList = ['.']) :
    withExtension (stem ++ ".asm") "bin" = stem ++ "." := by
  have hpart : lastPart stem.toList ≠ [] := by
    rw [hpoint]
    exact List.cons_ne_nil _ _
  rw [append_eq_ofList stem (by rfl), append_eq_ofList stem (by rfl),
    withExtension_append hpart ⟨by decide, by decide, by decide⟩, if_pos hpoint]

end Endings

end WordMachine.CommandLine.Path
