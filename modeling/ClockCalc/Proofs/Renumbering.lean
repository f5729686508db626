import ClockCalc.Proofs.Passes

/-! The two passes of a renumbering. The first gives names that no entry has, in the order of the
old ones and with their extensions. So a second listing finds the files in the old order, and what
the second pass makes of a name is what it would have made of the old one. -/

namespace ClockCalc

namespace Renumbering

open Disk (HasFile Lists Moved)

variable {disk disk' : Disk} {directory stem temporary name : String} {place : Place}
  {names moved : List String} {start width digits : Nat}

theorem wide_of_needed (hwidth : neededDigits start names.length ≤ width) :
    ∀ k < names.length, (Numeral.digits (start + k)).length ≤ width := by
  intro k hk
  have hle : start + k ≤ start + (names.length - 1) := by omega
  exact Nat.le_trans (Numeral.length_digits_mono hle) hwidth

/-- The temporary stem is one as it is drawn, and nothing that is there or is still to come begins
with it. The other stem leads nowhere else. -/
structure Apart (disk : Disk) (place : Place) (temporary stem : String) : Prop where
  letters : ∀ c ∈ temporary.toList, c ∈ Draw.alphabet
  free : ∀ name, disk.find? (place ++ [name]) ≠ none → ¬ HasStem temporary name
  unlike : ¬ HasStem temporary stem
  slash : '/' ∉ stem.toList

theorem letters_of_all (h : (temporary.toList.all fun c => decide (c ∈ Draw.alphabet)) = true) :
    ∀ c ∈ temporary.toList, c ∈ Draw.alphabet :=
  fun c hc => of_decide_eq_true (List.all_eq_true.1 h c hc)

theorem not_hasStem_of_entries
    (h : ∀ entry ∈ disk.entries, ∀ name ∈ entry.1, ¬ HasStem temporary name) (name : String)
    (hname : disk.find? (place ++ [name]) ≠ none) : ¬ HasStem temporary name := by
  obtain ⟨entry, hentry, hmem⟩ := Disk.exists_mem_entries hname
    (List.mem_append_right place List.mem_cons_self)
  exact h entry hentry name hmem

/-- Whatever can be given as a new name can be listed under it. -/
def Listable (disk : Disk) (directory : String) : Prop :=
  ∀ name, disk.Short (Path.trimEnd directory) name → disk.Short directory name

/-- The same of the files alone that are there. -/
def InSight (disk : Disk) (directory : String) (place : Place) : Prop :=
  ∀ name, disk.HasFile place name → disk.Short (Path.trimEnd directory) name →
    disk.Short directory name

theorem Listable.of_limits (hlimits : disk'.limits = disk.limits) (h : Listable disk directory) :
    Listable disk' directory :=
  fun name hshort => (h name (hshort.of_limits hlimits.symm)).of_limits hlimits

theorem Listable.inSight {f : String → String} (h : Listable disk directory)
    (hmoved : Moved place f disk disk') : InSight disk' directory place :=
  fun name _ => h.of_limits hmoved.limits name

/-- Every name fits behind a path that is short enough for the longest. -/
theorem listable_of_room {limits : PathLimits} (hlimits : disk.limits = some limits)
    (hroom : directory.utf8ByteSize + 1 + limits.nameBytes ≤ limits.pathBytes) :
    Listable disk directory := by
  intro name hshort
  refine ⟨?_, hshort.name⟩
  by_cases hhead : name.toList.head? = some '/'
  · -- such a name is a path of its own
    have hpath := hshort.path
    rwa [Path.join, if_pos hhead] at hpath ⊢
  · have hname := hshort.name
    rw [Disk.nameTooLong, hlimits, Option.any_some, decide_eq_false_iff_not] at hname
    rw [Disk.pathTooLong, hlimits, Option.any_some, Path.utf8ByteSize_join hhead,
      decide_eq_false_iff_not]
    split <;> omega

theorem Apart.not_mem (h : Apart disk place temporary stem) {c : Char} (hc : c ∉ Draw.alphabet) :
    c ∉ temporary.toList :=
  fun hmem => hc (h.letters c hmem)

theorem Apart.find?_newName (h : Apart disk place temporary stem) (n : Nat) (name : String) :
    disk.find? (place ++ [newName temporary width n name]) = none :=
  Classical.byContradiction fun hne => h.free _ hne hasStem_newName

theorem Apart.newName_newName (h : Apart disk place temporary stem) (m n : Nat) (name : String) :
    newName stem width n (newName temporary width m name) = newName stem width n name :=
  Renumbering.newName_newName (h.not_mem (by decide))

theorem ready_first (hapart : Apart disk place temporary stem) (htree : disk.IsTree)
    (hnode : disk.node directory = .ok (place, .directory))
    (hnames : disk.Lists directory place names)
    (hwidth : neededDigits start names.length ≤ width) :
    Ready directory temporary place width start names disk where
  tree := htree
  node := hnode
  slash := hapart.not_mem (by decide)
  files := fun _ => hnames.hasFile
  nodup := hnames.nodup
  wide := wide_of_needed hwidth
  fresh := fun k name _ ⟨content, hfind⟩ _ => by
    rw [hapart.find?_newName] at hfind
    cases hfind

/-- The names after the first pass in the order of their files before it. -/
def interim (temporary : String) (width start : Nat) (names : List String) : List String :=
  names.mapIdx fun k name => newName temporary width (start + k) name

theorem getElem?_interim (k : Nat) : (interim temporary width start names)[k]? =
    names[k]?.map (newName temporary width (start + k)) := by
  rw [interim, List.getElem?_mapIdx]

theorem getElem?_interim_of_getElem? {k : Nat} (h : names[k]? = some name) :
    (interim temporary width start names)[k]? =
      some (newName temporary width (start + k) name) := by
  rw [getElem?_interim, h, Option.map_some]

theorem exists_of_getElem?_interim {k : Nat}
    (h : (interim temporary width start names)[k]? = some name) :
    ∃ old, names[k]? = some old ∧ newName temporary width (start + k) old = name := by
  rwa [getElem?_interim, Option.map_eq_some_iff] at h

theorem length_interim : (interim temporary width start names).length = names.length :=
  List.length_mapIdx

theorem interim_sorted (hwide : ∀ k < names.length, (Numeral.digits (start + k)).length ≤ width) :
    (interim temporary width start names).Pairwise (· < ·) := by
  rw [List.pairwise_iff_getElem]
  intro i j hi hj hij
  rw [length_interim] at hi hj
  simp only [interim, List.getElem_mapIdx]
  exact newName_lt_newName (by omega) (hwide j hj)

theorem interim_nodup (hwide : ∀ k < names.length, (Numeral.digits (start + k)).length ≤ width) :
    (interim temporary width start names).Nodup :=
  (interim_sorted hwide).imp fun {a b} (hlt : a < b) (heq : a = b) =>
    String.lt_irrefl b (heq ▸ hlt)

theorem mem_interim (hnodup : names.Nodup) : name ∈ interim temporary width start names ↔
    ∃ old ∈ names, assigned temporary width start names old = name := by
  rw [List.mem_iff_getElem?]
  constructor
  · rintro ⟨k, hk⟩
    obtain ⟨old, hold, rfl⟩ := exists_of_getElem?_interim hk
    exact ⟨old, List.mem_of_getElem? hold, assigned_of_getElem? hnodup hold⟩
  · rintro ⟨old, hold, rfl⟩
    obtain ⟨k, hk⟩ := List.mem_iff_getElem?.1 hold
    exact ⟨k, by rw [getElem?_interim_of_getElem? hk, assigned_of_getElem? hnodup hk]⟩

/-- The second listing has the files in the order of the first. -/
theorem second_listing (hnames : disk.Lists directory place names)
    (hwidth : neededDigits start names.length ≤ width)
    (hmoved : Moved place (assigned temporary width start names) disk disk')
    (hlists : disk'.Lists directory place moved) :
    moved = (interim temporary width start names).filter
      fun name => !disk.pathTooLong (Path.join directory name) := by
  refine hlists.eq ⟨(interim_sorted (wide_of_needed hwidth)).filter _, fun name => ?_⟩
  rw [List.mem_filter, mem_interim hnames.nodup, hmoved.hasFile_iff, Bool.not_eq_true',
    hmoved.pathTooLong]
  constructor
  · rintro ⟨⟨old, hold, rfl⟩, hshort⟩
    exact ⟨⟨old, rfl, hnames.hasFile hold⟩, hshort⟩
  · rintro ⟨⟨old, rfl, hfile⟩, hshort⟩
    refine ⟨⟨old, ?_, rfl⟩, hshort⟩
    by_cases hold : old ∈ names
    · exact hold
    · -- a file that was not listed has its name still, and its path is still too long
      rw [assigned_of_not_mem hold] at hshort
      exact (hnames.mem old).2 ⟨hfile, hshort⟩

theorem mem_take_of_sublist {l l' : List String} (hsub : l'.Sublist l) (hnodup : l.Nodup) {k : Nat}
    (hk : l[k]? = some name) (hmem : name ∈ l') : name ∈ l'.take (k + 1) := by
  induction hsub generalizing k with
  | slnil => cases hmem
  | @cons l' l first hsub ih =>
    obtain ⟨hfirst, hrest⟩ := List.nodup_cons.1 hnodup
    cases k with
    | zero =>
      obtain rfl : first = name := Option.some.inj hk
      exact absurd (hsub.subset hmem) hfirst
    | succ k => exact List.take_subset_take_left _ (Nat.le_succ _) (ih hrest hk hmem)
  | @cons_cons l' l first hsub ih =>
    obtain ⟨hfirst, hrest⟩ := List.nodup_cons.1 hnodup
    rw [List.take_succ_cons, List.mem_cons]
    cases k with
    | zero => exact .inl (Option.some.inj hk).symm
    | succ k => exact (List.mem_cons.1 hmem).imp_right (ih hrest hk)

theorem ready_second (hapart : Apart disk place temporary stem)
    (hsight : InSight disk' directory place)
    (hnode : disk.node directory = .ok (place, .directory))
    (hnames : disk.Lists directory place names)
    (hwidth : neededDigits start names.length ≤ width) (htree : disk'.IsTree)
    (hmoved : Moved place (assigned temporary width start names) disk disk')
    (hlists : disk'.Lists directory place moved) :
    Ready directory stem place width start moved disk' := by
  have hwide := wide_of_needed hwidth
  have hlisting := second_listing hnames hwidth hmoved hlists
  have hsub : moved.Sublist (interim temporary width start names) :=
    hlisting ▸ List.filter_sublist
  have hlength : moved.length ≤ names.length := by
    simpa [length_interim] using hsub.length_le
  have hwide' (k : Nat) (hk : k < moved.length) : (Numeral.digits (start + k)).length ≤ width :=
    hwide k (Nat.lt_of_lt_of_le hk hlength)
  refine ⟨htree, hmoved.node hnode, hapart.slash, fun _ => hlists.hasFile, hlists.nodup, hwide',
    fun k name hname hfile hadmits => ?_⟩
  have hshort := hsight _ hfile hadmits.short
  have hmem : newName stem width (start + k) name ∈ moved := (hlists.mem _).2 ⟨hfile, hshort.path⟩
  obtain ⟨j, hj⟩ := List.mem_iff_getElem?.1 (hsub.subset hmem)
  obtain ⟨old, hold, hsame⟩ := exists_of_getElem?_interim hj
  -- only the temporary stem itself gives names that are listed, and these stay in their order
  rcases eq_or_hasStem (hapart.not_mem (by decide)) (hsame ▸ hasStem_newName) with rfl | hhas
  · have hjk := eq_of_newName_eq (hwide j (List.getElem?_eq_some_iff.1 hold).1)
      (hwide' k (List.getElem?_eq_some_iff.1 hname).1) hsame
    obtain rfl : j = k := by omega
    exact mem_take_of_sublist hsub (interim_nodup hwide) hj hmem
  · exact absurd hhas hapart.unlike

/-- What can become of a renumbering: it ends in the first pass, or in the second. -/
inductive Course (directory stem temporary : String) (place : Place) (start width : Nat)
    (widened : Bool) (names : List String) (disk : Disk) :
    Except Fault Renumbering → Disk → Prop
  | interrupted {done rest fault disk'} : names = done ++ rest →
      Moved place (assigned temporary width start done) disk disk' → disk'.IsTree →
      Ends directory temporary width (start + done.length) disk' rest (.error fault) →
      Course directory stem temporary place start width widened names disk (.error fault) disk'
  | through {middle moved done rest result disk'} :
      Moved place (assigned temporary width start names) disk middle →
      Taken directory temporary width start names disk →
      middle.Lists directory place moved → moved = done ++ rest →
      Moved place (assigned stem width start done) middle disk' →
      Taken directory stem width start done middle → disk'.IsTree →
      Ends directory stem width (start + done.length) disk' rest result →
      Course directory stem temporary place start width widened names disk
        (result.map fun _ => ⟨moved.length, width, widened⟩) disk'

theorem run_isDirectory (path : String) : (Disk.files.isDirectory path).run disk =
    ((disk.node path).map fun found => found.2.isDirectory, disk) := rfl

section

variable {middle : Disk} {width : Nat}
  (hnode : disk.node directory = .ok (place, .directory))
  (hlist : (sortedNames Disk.files directory).run.run disk = (.ok names, disk))
  (hwidth : width = max digits (neededDigits start names.length))
include hnode hlist hwidth

theorem renumber_of_interrupted {fault : Fault}
    (hpass : (renameAll Disk.files directory temporary width start names).run.run disk =
      (.error fault, middle)) :
    (renumber Disk.files directory stem start digits temporary).run.run disk =
      (.error fault, middle) := by
  subst hwidth
  rw [renumber, run_bind, run_liftM, run_isDirectory, hnode]
  simp only [Except.map, Node.isDirectory]
  rw [run_bind, hlist]
  simp only
  rw [run_bind, hpass]

theorem renumber_of_through {result : Except Fault Unit}
    (hpass : (renameAll Disk.files directory temporary width start names).run.run disk =
      (.ok (), middle))
    (hlist' : (sortedNames Disk.files directory).run.run middle = (.ok moved, middle))
    (hpass' : (renameAll Disk.files directory stem width start moved).run.run middle =
      (result, disk')) :
    (renumber Disk.files directory stem start digits temporary).run.run disk =
      (result.map fun _ => ⟨moved.length, width,
        decide (digits < neededDigits start names.length)⟩, disk') := by
  subst hwidth
  rw [renumber, run_bind, run_liftM, run_isDirectory, hnode]
  simp only [Except.map, Node.isDirectory]
  rw [run_bind, hlist]
  simp only
  rw [run_bind, hpass]
  simp only
  rw [run_bind, hlist']
  simp only
  rw [run_bind, hpass']
  cases result <;> rfl

end

theorem renumber_course_of_inSight (hwidth : width = max digits (neededDigits start names.length))
    (hapart : Apart disk place temporary stem)
    (hsight : ∀ middle, Moved place (assigned temporary width start names) disk middle →
      InSight middle directory place)
    (htree : disk.IsTree) (hnode : disk.node directory = .ok (place, .directory))
    (hnames : disk.Lists directory place names) :
    ∃ result disk',
      (renumber Disk.files directory stem start digits temporary).run.run disk =
        (result, disk') ∧
      Course directory stem temporary place start width
        (decide (digits < neededDigits start names.length)) names disk result disk' := by
  have hwide : neededDigits start names.length ≤ width := hwidth ▸ Nat.le_max_right _ _
  obtain ⟨names', hnames', hlist⟩ := sortedNames_lists htree hnode
  obtain rfl := hnames'.eq hnames
  obtain ⟨done, rest, result, middle, hsplit, hpass, hends, htree', htaken, hmoved⟩ :=
    renameAll_moves (ready_first hapart htree hnode hnames hwide)
  cases hends with
  | @stopped name rest refusal hrefused =>
    exact ⟨_, _, renumber_of_interrupted hnode hlist hwidth hpass,
      .interrupted hsplit hmoved htree' (.stopped hrefused)⟩
  | unwritten hwide =>
    exact ⟨_, _, renumber_of_interrupted hnode hlist hwidth hpass,
      .interrupted hsplit hmoved htree' (.unwritten hwide)⟩
  | all =>
    rw [List.append_nil] at hsplit
    subst hsplit
    obtain ⟨moved, hlists, hlist'⟩ := sortedNames_lists htree' (hmoved.node hnode)
    have hready :=
      ready_second hapart (hsight middle hmoved) hnode hnames hwide htree' hmoved hlists
    obtain ⟨done, rest, result, disk', hsplit, hpass', hends, htree'', htaken', hmoved'⟩ :=
      renameAll_moves hready
    exact ⟨_, _, renumber_of_through hnode hlist hwidth hpass hlist' hpass',
      .through hmoved htaken hlists hsplit hmoved' htaken' htree'' hends⟩

theorem renumber_fails (h : ∀ place, disk.node directory ≠ .ok (place, .directory)) :
    ∃ fault, (renumber Disk.files directory stem start digits temporary).run.run disk =
      (.error fault, disk) := by
  rw [renumber, run_bind, run_liftM, run_isDirectory]
  cases hnode : disk.node directory with
  | error refusal => exact ⟨_, rfl⟩
  | ok found =>
    obtain ⟨place, node⟩ := found
    cases node with
    | file content => exact ⟨_, rfl⟩
    | directory => exact absurd hnode (h place)

theorem renumber_of_not_directory (h : ∀ place, disk.node directory ≠ .ok (place, .directory)) :
    ((renumber Disk.files directory stem start digits temporary).run.run disk).2 = disk := by
  obtain ⟨fault, hrun⟩ := renumber_fails h
  rw [hrun]

theorem run_eq {start : Word} :
    (run Disk.files directory stem start digits temporary).run disk =
      if start.val < 0 then (.error (.negativeStart start), disk)
      else (renumber Disk.files directory stem start.val.toNat digits temporary).run.run disk := by
  rw [run]
  split <;> rfl

/-- The files of the directory go to names of their own in it, and nothing else changes. -/
theorem Course.exists_moved {widened : Bool} {result : Except Fault Renumbering}
    (h : Course directory stem temporary place start width widened names disk result disk') :
    ∃ f, Moved place f disk disk' := by
  cases h with
  | interrupted _ hmoved _ _ => exact ⟨_, hmoved⟩
  | through hmoved _ _ _ hmoved' _ _ _ => exact ⟨_, hmoved.trans hmoved'⟩

theorem Course.isTree {widened : Bool} {result : Except Fault Renumbering}
    (h : Course directory stem temporary place start width widened names disk result disk') :
    disk'.IsTree := by
  cases h <;> assumption

end Renumbering

end ClockCalc
