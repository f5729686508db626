import ClockCalc.Text.Count
import Mathlib.Algebra.GroupWithZero.Nat
import Mathlib.Data.List.SplitBy

/-! Counting characters by words. Without its blanks a text has the characters of its words, and
without the blanks that are not needed one more for each step from a word to the next. So it makes
no difference to these counts whether a text is tidied up first. -/

namespace ClockCalc.Text

/-- The longest runs of blanks and of other characters. -/
def runs (cs : List Char) : List (List Char) := cs.splitBy fun a b => isBlank a == isBlank b

/-- The runs that are not blank. -/
def words (cs : List Char) : List (List Char) := (runs cs).filter fun run => !run.all isBlank

abbrev Blank : Type := { c : Char // isBlank c = true }

def squeezeRun (pick : List Char → Blank) (run : List Char) : List Char :=
  if run.all isBlank then [(pick run).val] else run

/-- Every run of blanks replaced by the one blank that is picked for it. -/
def squeeze (pick : List Char → Blank) (cs : List Char) : List Char :=
  (runs cs).flatMap (squeezeRun pick)

/-- The text cut at every blank, without the cuts between two blanks. These are the words, too, and
they are easier to follow along the text. -/
def pieces (cs : List Char) : List (List Char) := (cs.splitOnP isBlank).filter (· ≠ [])

variable {cs ds w gap : List Char} {b c : Char}

theorem pieces_of_unbroken (hne : w ≠ []) (h : ∀ c ∈ w, isBlank c = false) : pieces w = [w] := by
  rw [pieces, List.splitOnP_eq_singleton h]
  simp [hne]

/-- A blank parts the words before it from those behind it. -/
theorem pieces_append_cons (cs ds : List Char) (hb : isBlank b = true) :
    pieces (cs ++ b :: ds) = pieces cs ++ pieces ds := by
  rw [pieces, List.splitOnP_append_cons cs ds hb, List.filter_append, pieces, pieces]

theorem pieces_cons_blank (hb : isBlank b = true) : pieces (b :: cs) = pieces cs :=
  pieces_append_cons [] cs hb

theorem pieces_gap_append (h : ∀ c ∈ gap, isBlank c = true) : pieces (gap ++ cs) = pieces cs := by
  induction gap with
  | nil => rfl
  | cons b gap ih =>
    obtain ⟨hb, hgap⟩ := List.forall_mem_cons.1 h
    rw [List.cons_append, pieces_cons_blank hb, ih hgap]

theorem pieces_append_gap (h : ∀ c ∈ gap, isBlank c = true) : pieces (cs ++ gap) = pieces cs := by
  cases gap with
  | nil => rw [List.append_nil]
  | cons b gap =>
    obtain ⟨hb, hgap⟩ := List.forall_mem_cons.1 h
    have hnone : pieces (gap ++ []) = [] := pieces_gap_append hgap
    rw [List.append_nil] at hnone
    rw [pieces_append_cons cs gap hb, hnone, List.append_nil]

theorem pieces_last_letter (hb : isBlank b = false) (hc : isBlank c = true) :
    pieces (b :: c :: cs) = [b] :: pieces cs := by
  have hparts := pieces_append_cons [b] cs hc
  rwa [pieces_of_unbroken (w := [b]) (by simp) (by simpa using hb)] at hparts

theorem pieces_ne_nil (cs : List Char) (hc : isBlank c = false) : pieces (c :: cs) ≠ [] := by
  obtain ⟨first, rest, hsplit⟩ := List.exists_cons_of_ne_nil (List.splitOnP_ne_nil isBlank cs)
  simp [pieces, List.splitOnP_cons_eq_if_modifyHead, hc, hsplit]

/-- One more character at the start of a word makes no word more. -/
theorem length_pieces_cons (hb : isBlank b = false) (hc : isBlank c = false) :
    (pieces (b :: c :: cs)).length = (pieces (c :: cs)).length := by
  obtain ⟨first, rest, hsplit⟩ := List.exists_cons_of_ne_nil (List.splitOnP_ne_nil isBlank cs)
  simp [pieces, List.splitOnP_cons_eq_if_modifyHead, hb, hc, hsplit]

theorem sum_length_pieces (cs : List Char) :
    ((pieces cs).map List.length).sum = cs.countP fun c => !isBlank c := by
  have hempty (parts : List (List Char)) :
      ((parts.filter (· ≠ [])).map List.length).sum = (parts.map List.length).sum := by
    induction parts with
    | nil => rfl
    | cons part parts ih => cases part <;> simpa using ih
  rw [pieces, hempty]
  induction cs with
  | nil => rfl
  | cons c cs ih =>
    rw [List.splitOnP_cons_eq_if_modifyHead, List.countP_cons, ← ih]
    obtain ⟨first, rest, hsplit⟩ := List.exists_cons_of_ne_nil (List.splitOnP_ne_nil isBlank cs)
    cases hc : isBlank c with
    | true => simp
    | false =>
      simp [hsplit]
      omega

/-- A run of one sort, as `runs` has them. -/
def IsUniform (run : List Char) : Prop :=
  run ≠ [] ∧ ((∀ c ∈ run, isBlank c = true) ∨ ∀ c ∈ run, isBlank c = false)

theorem isUniform_of_mem_runs {run : List Char} (h : run ∈ runs cs) : IsUniform run := by
  have hchain := List.isChain_of_mem_splitBy h
  refine ⟨List.ne_nil_of_mem_splitBy h, ?_⟩
  clear h
  induction hchain with
  | nil => simp
  | singleton c => simp
  | cons_cons hsame _ ih =>
    rw [beq_iff_eq] at hsame
    rw [List.forall_mem_cons, List.forall_mem_cons (p := fun c => isBlank c = false), hsame]
    rcases ih with ih | ih
    · exact .inl ⟨ih _ List.mem_cons_self, ih⟩
    · exact .inr ⟨ih _ List.mem_cons_self, ih⟩

theorem not_all_isBlank {run : List Char} (hne : run ≠ []) (h : ∀ c ∈ run, isBlank c = false) :
    run.all isBlank = false := by
  obtain ⟨c, rest, rfl⟩ := List.exists_cons_of_ne_nil hne
  simp [h c List.mem_cons_self]

/-- By induction on the runs. A word ends at a blank, for the next run is of the other sort. -/
theorem pieces_flatten {rs : List (List Char)} (h : ∀ run ∈ rs, IsUniform run)
    (hchain : rs.IsChain fun run next =>
      ∃ hrun hnext, (isBlank (run.getLast hrun) == isBlank (next.head hnext)) = false) :
    pieces rs.flatten = rs.filter fun run => !run.all isBlank := by
  induction rs with
  | nil => rfl
  | cons run rest ih =>
    obtain ⟨⟨hne, hrun⟩, hrest⟩ := List.forall_mem_cons.1 h
    obtain ⟨hnext, htail⟩ := List.isChain_cons.1 hchain
    have ih := ih hrest htail
    rw [List.flatten_cons]
    rcases hrun with hblank | hword
    · rw [pieces_gap_append hblank, ih, List.filter_cons, List.all_eq_true.2 hblank]
      rfl
    · rw [List.filter_cons, not_all_isBlank hne hword, ← ih]
      cases rest with
      | nil => rw [List.flatten_nil, List.append_nil, pieces_of_unbroken hne hword]; rfl
      | cons next rest =>
        obtain ⟨hlast, hhead, hdiffer⟩ := hnext next rfl
        obtain ⟨b, gap, rfl⟩ := List.exists_cons_of_ne_nil hhead
        have hb : isBlank b = true := by simpa [hword _ (List.getLast_mem hlast)] using hdiffer
        rw [List.flatten_cons, List.cons_append, pieces_append_cons _ _ hb, pieces_cons_blank hb,
          pieces_of_unbroken hne hword]
        rfl

theorem flatten_runs (cs : List Char) : (runs cs).flatten = cs := List.flatten_splitBy _ cs

theorem words_eq_pieces (cs : List Char) : words cs = pieces cs := by
  have hpieces : pieces (runs cs).flatten = words cs :=
    pieces_flatten (fun _ => isUniform_of_mem_runs)
      (List.isChain_getLast_head_splitBy (fun a b => isBlank a == isBlank b) cs)
  rw [← hpieces, flatten_runs]

/-- What the blank runs are replaced by does not matter. The induction is on the runs, with the
letters before them, for a run may go on from these. -/
theorem pieces_append_flatMap (pick : List Char → Blank) {rs : List (List Char)}
    (h : ∀ run ∈ rs, IsUniform run) (cs : List Char) :
    pieces (cs ++ rs.flatMap (squeezeRun pick)) = pieces (cs ++ rs.flatten) := by
  induction rs generalizing cs with
  | nil => rfl
  | cons run rest ih =>
    obtain ⟨⟨hne, hrun⟩, hrest⟩ := List.forall_mem_cons.1 h
    rw [List.flatMap_cons, List.flatten_cons]
    rcases hrun with hblank | hword
    · obtain ⟨b, gap, rfl⟩ := List.exists_cons_of_ne_nil hne
      obtain ⟨hb, hgap⟩ := List.forall_mem_cons.1 hblank
      rw [squeezeRun, if_pos (List.all_eq_true.2 hblank), List.singleton_append, List.cons_append,
        pieces_append_cons _ _ (pick (b :: gap)).property, pieces_append_cons _ _ hb,
        pieces_gap_append hgap]
      exact congrArg (pieces cs ++ ·) (ih hrest [])
    · rw [squeezeRun, not_all_isBlank hne hword, if_neg Bool.false_ne_true, ← List.append_assoc,
        ← List.append_assoc]
      exact ih hrest (cs ++ run)

theorem pieces_squeeze (pick : List Char → Blank) (cs : List Char) :
    pieces (squeeze pick cs) = pieces cs := by
  have hpieces : pieces (squeeze pick cs) = pieces (runs cs).flatten :=
    pieces_append_flatMap pick (fun _ => isUniform_of_mem_runs) []
  rwa [flatten_runs] at hpieces

theorem gap_append_dropWhile (cs : List Char) :
    ∃ gap, (∀ c ∈ gap, isBlank c = true) ∧ gap ++ cs.dropWhile isBlank = cs :=
  ⟨cs.takeWhile isBlank, List.all_eq_true.1 List.all_takeWhile, List.takeWhile_append_dropWhile⟩

theorem head_dropWhile (cs : List Char) :
    ∀ c ∈ (cs.dropWhile isBlank).head?, isBlank c = false := by
  intro c hc
  have hhead := List.head?_dropWhile_not isBlank cs
  rwa [Option.mem_def.1 hc] at hhead

theorem trim_append_gap (cs : List Char) :
    ∃ gap, (∀ c ∈ gap, isBlank c = true) ∧ trim cs ++ gap = cs.dropWhile isBlank := by
  obtain ⟨gap, hgap, hsplit⟩ := gap_append_dropWhile (cs.dropWhile isBlank).reverse
  refine ⟨gap.reverse, by simpa using hgap, ?_⟩
  rw [trim, ← List.reverse_append, hsplit, List.reverse_reverse]

theorem head_trim (cs : List Char) : ∀ c ∈ (trim cs).head?, isBlank c = false := by
  intro c hc
  obtain ⟨gap, -, hsplit⟩ := trim_append_gap cs
  refine head_dropWhile cs c ?_
  rw [← hsplit]
  simp [List.head?_append, Option.mem_def.1 hc]

theorem getLast_trim (cs : List Char) : ∀ c ∈ (trim cs).getLast?, isBlank c = false := by
  rw [trim, List.getLast?_reverse]
  exact head_dropWhile _

theorem pieces_trim (cs : List Char) : pieces (trim cs) = pieces cs := by
  obtain ⟨before, hbefore, hdrop⟩ := gap_append_dropWhile cs
  obtain ⟨behind, hbehind, htrim⟩ := trim_append_gap cs
  calc pieces (trim cs) = pieces (trim cs ++ behind) := (pieces_append_gap hbehind).symm
    _ = pieces (cs.dropWhile isBlank) := by rw [htrim]
    _ = pieces (before ++ cs.dropWhile isBlank) := (pieces_gap_append hbefore).symm
    _ = pieces cs := by rw [hdrop]

/-- The count goes on behind a character. -/
def countBehind (before : Char) (cs : List Char) : Nat :=
  (cs.zip (before :: cs)).countP fun (c, before) => !(isBlank c && isBlank before)

theorem countBehind_cons (before c : Char) (cs : List Char) :
    countBehind before (c :: cs) =
      countBehind c cs + if isBlank c && isBlank before then 0 else 1 := by
  simp only [countBehind, List.zip_cons_cons, List.countP_cons]
  cases isBlank c && isBlank before <;> rfl

/-- By induction on the text, with the character before it. If that one is in a word, the word has
been begun; the last word ends the text and has no blank to count behind it. -/
theorem countBehind_add (before : Char) (cs : List Char)
    (hlast : ∀ c ∈ (before :: cs).getLast?, isBlank c = false) :
    countBehind before cs + (if isBlank before then 0 else 1) + 1 =
      (before :: cs).countP (fun c => !isBlank c) + (pieces (before :: cs)).length := by
  induction cs generalizing before with
  | nil =>
    have hb : isBlank before = false := hlast before rfl
    rw [pieces_of_unbroken (by simp) (by simpa using hb)]
    simp [countBehind, hb]
  | cons c cs ih =>
    have hrest := ih c (by simpa using hlast)
    rw [countBehind_cons, List.countP_cons]
    cases hb : isBlank before with
    | true =>
      rw [pieces_cons_blank hb]
      cases hc : isBlank c with
      | true => simpa [hc] using hrest
      | false =>
        simp [hc] at hrest ⊢
        omega
    | false =>
      cases hc : isBlank c with
      | true =>
        rw [pieces_cons_blank hc] at hrest
        rw [pieces_last_letter hb hc]
        simp [hc] at hrest ⊢
        omega
      | false =>
        rw [length_pieces_cons hb hc]
        simp [hc] at hrest ⊢
        omega

theorem countCollapsed_trim (cs : List Char) :
    countCollapsed (trim cs) =
      ((pieces cs).map List.length).sum + ((pieces cs).length - 1) := by
  have hhead := head_trim cs
  have hlast := getLast_trim cs
  rw [← pieces_trim, sum_length_pieces]
  cases htrim : trim cs with
  | nil => rfl
  | cons c rest =>
    rw [htrim] at hhead hlast
    have hc : isBlank c = false := hhead c rfl
    have hstart : countCollapsed (c :: rest) = countBehind c rest + 1 := by
      rw [show countCollapsed (c :: rest) = countBehind '.' (c :: rest) from rfl, countBehind_cons]
      simp [hc]
    have hcount := countBehind_add c rest hlast
    have hsome := List.length_pos_iff.2 (pieces_ne_nil rest hc)
    rw [hc, if_neg Bool.false_ne_true] at hcount
    omega

theorem countChars_collapsed (text : String) :
    countChars .collapsed text =
      ((words text.toList).map List.length).sum + ((words text.toList).length - 1) := by
  rw [words_eq_pieces]
  exact countCollapsed_trim text.toList

theorem countChars_skipped (text : String) :
    countChars .skipped text = ((words text.toList).map List.length).sum := by
  rw [words_eq_pieces, sum_length_pieces]
  rfl

/-- A text without the blanks that are not needed counts as many characters as its words have, and
one for each step from a word to the next. Without any blanks only the characters of the words are
counted. Both counts stay as they are if every run of blanks is replaced by one blank, whichever it
is, and those at the ends are dropped. -/
theorem counts_of_words (text : String) :
    countChars (.ofWishes true false) text =
      ((words text.toList).map List.length).sum + ((words text.toList).length - 1) ∧
    (∀ unnecessary, countChars (.ofWishes unnecessary true) text =
      ((words text.toList).map List.length).sum) ∧
    ∀ pick,
      let tidy := String.ofList (trim (squeeze pick text.toList))
      countChars (.ofWishes true false) tidy = countChars (.ofWishes true false) text ∧
      ∀ unnecessary, countChars (.ofWishes unnecessary true) tidy =
        countChars (.ofWishes unnecessary true) text := by
  have hcollapsed (text : String) : countChars (.ofWishes true false) text = _ :=
    countChars_collapsed text
  have hskipped (text : String) (unnecessary : Bool) :
      countChars (.ofWishes unnecessary true) text = _ := countChars_skipped text
  refine ⟨hcollapsed text, hskipped text, fun pick => ?_⟩
  have hwords : words (trim (squeeze pick text.toList)) = words text.toList := by
    rw [words_eq_pieces, words_eq_pieces, pieces_trim, pieces_squeeze]
  simp only [hcollapsed, hskipped, String.toList_ofList, hwords, implies_true, and_self]

end ClockCalc.Text
