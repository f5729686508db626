import ClockCalc.Files.Renumber
import ClockCalc.Proofs.Numerals
import ClockCalc.Proofs.Paths

/-! The names that a renumbering gives. Among names with one stem and one width the order is that of
the numbers, whatever the extensions; with a stem of letters a name keeps its extension, so that it
is there to be read off again. -/

namespace ClockCalc

namespace Path

/-- A name and its extension, which is empty if there is no point but at the very start. -/
inductive HasExtension : List Char → List Char → Prop
  | none {name} : '.' ∉ name.tail → HasExtension name []
  | some {base tail} : base ≠ [] → '.' ∉ tail → HasExtension (base ++ '.' :: tail) ('.' :: tail)

theorem all_ne_dot {cs : List Char} (h : '.' ∉ cs) : ∀ c ∈ cs, decide (c ≠ '.') = true := by
  intro c hc
  rw [decide_eq_true_iff]
  rintro rfl
  exact h hc

theorem takeWhile_ne_dot {tail rest : List Char} (h : '.' ∉ tail) :
    (tail ++ '.' :: rest).takeWhile (· ≠ '.') = tail := by
  rw [List.takeWhile_append_of_pos (all_ne_dot h)]
  simp

theorem HasExtension.eq {name ext : List Char} (h : HasExtension name ext) :
    extensionChars name = ext := by
  cases h with
  | none h =>
    cases name with
    | nil => rfl
    | cons c cs =>
      have hle : (c :: cs).length ≤ ((c :: cs).reverse.takeWhile (· ≠ '.')).reverse.length + 1 := by
        have hrev : '.' ∉ cs.reverse := mt List.mem_reverse.1 h
        rw [List.reverse_cons, List.takeWhile_append_of_pos (all_ne_dot hrev)]
        simp
      exact if_neg (Nat.not_lt.2 hle)
  | @some base tail hbase htail =>
    have hrev : (base ++ '.' :: tail).reverse = tail.reverse ++ '.' :: base.reverse := by simp
    have hpos := List.length_pos_iff.2 hbase
    rw [extensionChars, hrev, takeWhile_ne_dot (by simpa using htail), List.reverse_reverse,
      List.length_append, List.length_cons, if_pos (by omega)]

theorem hasExtension (name : List Char) : HasExtension name (extensionChars name) := by
  by_cases hdot : '.' ∈ name.tail
  · obtain ⟨as, bs, hsplit, has⟩ := List.eq_append_cons_of_mem (List.mem_reverse.2 hdot)
    obtain ⟨c, cs, rfl⟩ : ∃ c cs, name = c :: cs := by
      cases name with
      | nil => cases hdot
      | cons c cs => exact ⟨c, cs, rfl⟩
    have hcs : c :: cs = (c :: bs.reverse) ++ '.' :: as.reverse := by
      have := congrArg List.reverse hsplit
      simp_all
    have h := HasExtension.some (List.cons_ne_nil c bs.reverse) (mt List.mem_reverse.1 has)
    rwa [hcs, h.eq]
  · have h := HasExtension.none hdot
    rwa [h.eq]

theorem mem_of_mem_extension {name : String} {c : Char} (h : c ∈ (extension name).toList) :
    c ∈ name.toList := by
  rw [extension, String.toList_ofList] at h
  have hext := hasExtension name.toList
  generalize extensionChars name.toList = ext at h hext
  generalize name.toList = cs at hext ⊢
  cases hext with
  | none => cases h
  | some => exact List.mem_append_right _ h

/-- What stands before an extension does not matter, if it has no point. -/
theorem extensionChars_append {cs name : List Char} (hcs : cs ≠ []) (hdot : '.' ∉ cs) :
    extensionChars (cs ++ extensionChars name) = extensionChars name := by
  refine HasExtension.eq ?_
  have hext := hasExtension name
  generalize extensionChars name = ext at hext ⊢
  cases hext with
  | none =>
    rw [List.append_nil]
    exact .none (fun h => hdot (List.mem_of_mem_tail h))
  | some _ htail => exact .some hcs htail

end Path

namespace Renumbering

variable {stem temporary name name' : String} {digits m n : Nat}

theorem toList_newName : (newName stem digits n name).toList =
    stem.toList ++ '-' :: (Numeral.padded digits n ++ (Path.extension name).toList) := by
  simp [newName]

theorem head?_newName (hstem : '/' ∉ stem.toList) :
    (newName stem digits n name).toList.head? ≠ some '/' := by
  rw [toList_newName]
  intro hhead
  cases hcs : stem.toList with
  | nil => simp [hcs] at hhead
  | cons c cs =>
    obtain rfl : c = '/' := by simpa [hcs] using hhead
    exact hstem (hcs ▸ List.mem_cons_self)

theorem isName_newName (hstem : '/' ∉ stem.toList) (hname : '/' ∉ name.toList) :
    Path.IsName (newName stem digits n name) := by
  have hdash : '-' ∈ (newName stem digits n name).toList := by simp [toList_newName]
  refine ⟨?_, ?_, ?_, ?_⟩
  · intro h
    simp [h] at hdash
  · intro h
    simp [h] at hdash
  · intro h
    simp [h] at hdash
  · rw [toList_newName]
    have hdigits : '/' ∉ Numeral.padded digits n := fun h =>
      absurd (Numeral.isDigit_of_mem_padded h) (by decide)
    have hext : '/' ∉ (Path.extension name).toList := mt Path.mem_of_mem_extension hname
    simp [hstem, hdigits, hext]

theorem nul_mem_newName (hstem : '\x00' ∉ stem.toList) (hname : '\x00' ∉ name.toList) :
    '\x00' ∉ (newName stem digits n name).toList := by
  have hdigits : '\x00' ∉ Numeral.padded digits n := fun h =>
    absurd (Numeral.isDigit_of_mem_padded h) (by decide)
  have hext : '\x00' ∉ (Path.extension name).toList := mt Path.mem_of_mem_extension hname
  simp [toList_newName, hstem, hdigits, hext]

theorem extension_newName (h : '.' ∉ stem.toList) :
    Path.extension (newName stem digits n name) = Path.extension name := by
  have hdigits : '.' ∉ Numeral.padded digits n := fun h =>
    absurd (Numeral.isDigit_of_mem_padded h) (by decide)
  have hbase : '.' ∉ stem.toList ++ '-' :: Numeral.padded digits n := by simp [h, hdigits]
  rw [Path.extension, toList_newName, ← List.cons_append, ← List.append_assoc, Path.extension,
    String.toList_ofList, Path.extensionChars_append (by simp) hbase]

/-- Of two new names one after the other the second is as if it had been the first. -/
theorem newName_newName (h : '.' ∉ temporary.toList) :
    newName stem digits n (newName temporary digits m name) = newName stem digits n name := by
  rw [newName, extension_newName h, newName]

theorem append_lt_append {cs ds as bs : List Char} (hlength : cs.length = ds.length)
    (h : cs < ds) : cs ++ as < ds ++ bs := by
  induction cs generalizing ds with
  | nil =>
    cases ds with
    | nil => exact absurd h (List.not_lt_nil [])
    | cons d ds => cases hlength
  | cons c cs ih =>
    cases ds with
    | nil => cases hlength
    | cons d ds =>
      rw [List.cons_lt_cons_iff] at h
      rw [List.cons_append, List.cons_append, List.cons_lt_cons_iff]
      exact h.imp_right fun ⟨hhead, htail⟩ => ⟨hhead, ih (Nat.succ.inj hlength) htail⟩

/-- The order of names is that of their numbers as long as these fit into the digits. -/
theorem newName_lt_newName (hmn : m < n) (hn : (Numeral.digits n).length ≤ digits) :
    newName stem digits m name < newName stem digits n name' := by
  have hm := Nat.le_trans (Numeral.length_digits_mono (Nat.le_of_lt hmn)) hn
  have hlength : (Numeral.padded digits m).length = (Numeral.padded digits n).length := by
    rw [Numeral.length_padded hm, Numeral.length_padded hn]
  rw [String.lt_iff, toList_newName, toList_newName]
  refine List.append_left_lt (List.cons_lt_cons_iff.2 (.inr ⟨rfl, ?_⟩))
  exact append_lt_append hlength (Numeral.padded_lt_padded hmn hn)

theorem eq_of_newName_eq (hm : (Numeral.digits m).length ≤ digits)
    (hn : (Numeral.digits n).length ≤ digits)
    (h : newName stem digits m name = newName stem digits n name') : m = n := by
  rcases Nat.lt_trichotomy m n with hlt | heq | hgt
  · exact absurd (h ▸ newName_lt_newName hlt hn) (String.lt_irrefl _)
  · exact heq
  · exact absurd (h ▸ newName_lt_newName hgt hm) (String.lt_irrefl _)

/-- The name begins with the stem and a dash, as new names do. -/
def HasStem (stem name : String) : Prop := (stem ++ "-").toList <+: name.toList

instance (stem name : String) : Decidable (HasStem stem name) :=
  inferInstanceAs (Decidable ((stem ++ "-").toList <+: name.toList))

theorem hasStem_newName : HasStem stem (newName stem digits n name) := by
  rw [HasStem, toList_newName, String.toList_append]
  exact ⟨Numeral.padded digits n ++ (Path.extension name).toList, by simp⟩

/-- A new name begins with a stem that has no dash only if its own does. -/
theorem eq_or_hasStem (hdash : '-' ∉ temporary.toList)
    (h : HasStem temporary (newName stem digits n name)) :
    stem = temporary ∨ HasStem temporary stem := by
  have hown : HasStem stem (newName stem digits n name) := hasStem_newName
  simp only [HasStem, String.toList_append] at h hown ⊢
  rcases Nat.lt_trichotomy temporary.toList.length stem.toList.length with hlt | heq | hgt
  · have hstem : stem.toList <+: (newName stem digits n name).toList :=
      (List.prefix_append _ _).trans hown
    exact .inr (List.prefix_of_prefix_length_le h hstem (by simpa using Nat.succ_le_of_lt hlt))
  · have hbegins := List.prefix_of_prefix_length_le h hown (by simp_all)
    have hsame := hbegins.eq_of_length (by simp_all)
    exact .inl (String.toList_inj.1 (List.append_inj_left hsame heq).symm)
  · have htemporary : temporary.toList <+: (newName stem digits n name).toList :=
      (List.prefix_append _ _).trans h
    have hbegins := List.prefix_of_prefix_length_le hown htemporary
      (by simpa using Nat.succ_le_of_lt hgt)
    exact absurd (hbegins.subset (by simp)) hdash

end Renumbering

end ClockCalc
