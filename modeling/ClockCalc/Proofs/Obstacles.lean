import ClockCalc.Proofs.ByteOrder
import ClockCalc.Proofs.Renumbering

/-! What can be in the way of a renumbering. Where the names it uses are not too long, only a
directory that has one of the new names is. The second pass stops there, and by then every file has
either its new name or its temporary one. -/

namespace ClockCalc

namespace Disk

open ClockCalc.Path (IsName)

variable {disk : Disk} {directory name old new : String} {place : Place} {content : ByteArray}
  {refusal : Files.Refusal}

/-- Of names that can be used only that of a directory is refused. -/
theorem renameIn_eq_error_iff (h : disk.node directory = .ok (place, .directory))
    (hold : IsName old) (hnew : IsName new)
    (hfind : disk.find? (place ++ [old]) = some (.file content))
    (hadmits : disk.Admits directory old) (hadmits' : disk.Admits (Path.trimEnd directory) new) :
    disk.renameIn directory old new = .error refusal ↔
      disk.find? (place ++ [new]) = some .directory ∧ refusal = isDirectory := by
  have hsource : disk.node (Path.join directory old) = .ok (place ++ [old], .file content) :=
    node_eq_ok_iff.2 ⟨(locate_join h hold).2 ⟨hadmits, rfl⟩, hfind⟩
  have htarget : disk.locate (Path.join (Path.trimEnd directory) new) = .ok (place ++ [new]) :=
    (locate_join (node_trimEnd h) hnew).2 ⟨hadmits', rfl⟩
  rw [renameIn, rename, hsource, ok_bind]
  simp only [htarget, ok_bind]
  split
  · rename_i hdirectory
    simp [hdirectory, eq_comm]
  · simp_all

end Disk

namespace Renumbering

open Disk (HasFile Lists Moved)

variable {disk disk' middle : Disk} {directory stem temporary name : String} {place : Place}
  {names moved : List String} {start width digits i k : Nat}

/-- The stem can be used and numbers of that width be written, and the names before, between and
after the passes are not too long. -/
structure Fits (disk : Disk) (directory stem temporary : String) (width start : Nat)
    (names : List String) : Prop where
  nul : names ≠ [] → '\x00' ∉ stem.toList
  written : names ≠ [] → width ≤ widest
  old : ∀ name ∈ names, disk.Short directory name
  interim : ∀ k name, names[k]? = some name →
    disk.Short directory (newName temporary width (start + k) name)
  final : ∀ k name, names[k]? = some name →
    disk.Short (Path.trimEnd directory) (newName stem width (start + k) name)

theorem fits_of_unlimited (h : disk.limits = none) (hnul : '\x00' ∉ stem.toList)
    (hwritten : names ≠ [] → width ≤ widest) :
    Fits disk directory stem temporary width start names :=
  ⟨fun _ => hnul, hwritten, fun _ _ => Disk.short_of_unlimited h,
    fun _ _ _ => Disk.short_of_unlimited h, fun _ _ _ => Disk.short_of_unlimited h⟩

theorem Fits.not_wide (h : Fits disk directory stem temporary width start names)
    (hk : names[k]? = some name) : ¬ widest < width :=
  Nat.not_lt.2 (h.written (List.ne_nil_of_mem (List.mem_of_getElem? hk)))

/-- Where a pass stops at a file whose names are not too long, a directory has the new one. -/
theorem find?_of_stopped {first last : Disk} {done rest : List String} {n : Nat}
    {refusal : Files.Refusal} (hnode : first.node directory = .ok (place, .directory))
    (hnodup : names.Nodup) (hfile : first.HasFile place name) (hslash : '/' ∉ stem.toList)
    (hnul : '\x00' ∉ stem.toList) (hsplit : names = done ++ name :: rest)
    (hmoved : Moved place (assigned stem width n done) first last) (htree : last.IsTree)
    (hold : first.Short directory name)
    (hnew : first.Short (Path.trimEnd directory) (newName stem width (n + done.length) name))
    (hrefused : last.renameIn directory name (newName stem width (n + done.length) name) =
      .error refusal) :
    first.find? (place ++ [newName stem width (n + done.length) name]) = some .directory ∧
      refusal = Disk.isDirectory := by
  have hnot : name ∉ done := by
    rw [hsplit, List.nodup_append] at hnodup
    exact fun hdone => hnodup.2.2 name hdone name List.mem_cons_self rfl
  have hstill := hmoved.hasFile hfile
  rw [assigned_of_not_mem hnot] at hstill
  obtain ⟨content, hfind⟩ := hstill
  obtain ⟨hname, hnul'⟩ := htree.names_of_find? (hfind ▸ Option.some_ne_none _)
    (List.mem_append_right place List.mem_cons_self)
  have hadmits := (hold.of_limits hmoved.limits).admits hnul'
  have hadmits' := (hnew.of_limits hmoved.limits).admits (nul_mem_newName hnul hnul')
  obtain ⟨hin, hrefusal⟩ := (Disk.renameIn_eq_error_iff (hmoved.node hnode) hname
    (isName_newName hslash hname.slash) hfind hadmits hadmits').1 hrefused
  exact ⟨(hmoved.directory _).1 hin, hrefusal⟩

theorem moved_eq_interim (hnames : disk.Lists directory place names)
    (hwidth : neededDigits start names.length ≤ width)
    (hshort : ∀ k name, names[k]? = some name →
      disk.Short directory (newName temporary width (start + k) name))
    (hmoved : Moved place (assigned temporary width start names) disk middle)
    (hlists : middle.Lists directory place moved) :
    moved = interim temporary width start names := by
  rw [second_listing hnames hwidth hmoved hlists, List.filter_eq_self]
  intro name hname
  obtain ⟨k, hk⟩ := List.mem_iff_getElem?.1 hname
  obtain ⟨old, hold, rfl⟩ := exists_of_getElem?_interim hk
  rw [(hshort k old hold).path]
  rfl

/-- Where the files are when the second pass has come to the `i`-th of them. -/
def halfway (stem temporary : String) (width start : Nat) (names : List String) (i : Nat)
    (name : String) : String :=
  if name ∈ names.take i then assigned stem width start names name
  else assigned temporary width start names name

theorem mem_take_iff (hnodup : names.Nodup) (hk : names[k]? = some name) :
    name ∈ names.take i ↔ k < i := by
  constructor
  · intro hmem
    obtain ⟨j, hj⟩ := List.mem_iff_getElem?.1 hmem
    rw [List.getElem?_take] at hj
    split at hj
    · have hlt : j < names.length := (List.getElem?_eq_some_iff.1 hj).1
      have hjk : j = k := (List.getElem?_inj hlt hnodup).1 (hj.trans hk.symm)
      omega
    · cases hj
  · intro hlt
    exact List.mem_of_getElem? ((List.getElem?_take_of_lt hlt).trans hk)

theorem halfway_of_getElem? (hnodup : names.Nodup) (hk : names[k]? = some name) :
    halfway stem temporary width start names i name =
      newName (if k < i then stem else temporary) width (start + k) name := by
  have hmem := mem_take_iff hnodup hk (i := i)
  rw [halfway]
  split
  · rw [if_pos (hmem.1 ‹_›), assigned_of_getElem? hnodup hk]
  · rw [if_neg (mt hmem.2 ‹_›), assigned_of_getElem? hnodup hk]

theorem halfway_of_not_mem (h : name ∉ names) :
    halfway stem temporary width start names i name = name := by
  rw [halfway, if_neg (fun hmem => h (List.mem_of_mem_take hmem)), assigned_of_not_mem h]

/-- The first pass, and the second one for the first `i` files. -/
theorem assigned_interim (hapart : Apart disk place temporary stem)
    (hnames : disk.Lists directory place names)
    (hwidth : neededDigits start names.length ≤ width) (hfile : disk.HasFile place name) :
    assigned stem width start ((interim temporary width start names).take i)
        (assigned temporary width start names name) =
      halfway stem temporary width start names i name := by
  have hnodup : (interim temporary width start names).Nodup := interim_nodup (wide_of_needed hwidth)
  by_cases hmem : name ∈ names
  · obtain ⟨k, hk⟩ := List.mem_iff_getElem?.1 hmem
    have hk' : (interim temporary width start names)[k]? =
        some (newName temporary width (start + k) name) := getElem?_interim_of_getElem? hk
    rw [halfway_of_getElem? hnames.nodup hk, assigned_of_getElem? hnames.nodup hk]
    by_cases hki : k < i
    · rw [if_pos hki, assigned_of_getElem? (hnodup.sublist (List.take_sublist _ _))
        ((List.getElem?_take_of_lt hki).trans hk'), hapart.newName_newName]
    · rw [if_neg hki, assigned_of_not_mem (mt (mem_take_iff hnodup hk').1 hki)]
  · have hnot : name ∉ (interim temporary width start names).take i := by
      intro htaken
      obtain ⟨k, hk⟩ := List.mem_iff_getElem?.1 (List.mem_of_mem_take htaken)
      obtain ⟨old, -, rfl⟩ := exists_of_getElem?_interim hk
      obtain ⟨content, hfind⟩ := hfile
      rw [hapart.find?_newName] at hfind
      cases hfind
    rw [halfway_of_not_mem hmem, assigned_of_not_mem hmem, assigned_of_not_mem hnot]

theorem getElem?_of_split {done rest : List String} (h : names = done ++ name :: rest) :
    names[done.length]? = some name := by
  rw [h, List.getElem?_append_right (Nat.le_refl _), Nat.sub_self, List.getElem?_cons_zero]

/-- The first pass comes to its end. The second one ends with the list, or at the first file whose
new name is that of a directory. -/
theorem Course.ends {widened : Bool} {result : Except Fault Renumbering}
    (h : Course directory stem temporary place start width widened names disk result disk')
    (hapart : Apart disk place temporary stem)
    (hnode : disk.node directory = .ok (place, .directory))
    (hnames : disk.Lists directory place names)
    (hwidth : neededDigits start names.length ≤ width)
    (hfits : Fits disk directory stem temporary width start names) :
    ∃ i, Moved place (halfway stem temporary width start names i) disk disk' ∧
      (i = names.length ∧ result = .ok ⟨names.length, width, widened⟩ ∨
        ∃ name, names[i]? = some name ∧
          disk.find? (place ++ [newName stem width (start + i) name]) = some .directory ∧
          result = .error (.file (.failed
            (Path.join directory (newName temporary width (start + i) name))
            Disk.isDirectory.text))) := by
  cases h with
  | interrupted hsplit hmoved htree hends =>
    cases hends with
    | @stopped name rest refusal hrefused =>
      have hk := getElem?_of_split hsplit
      have hname := List.mem_of_getElem? hk
      have hslash : '/' ∉ temporary.toList := hapart.not_mem (by decide)
      have hnew := (hfits.interim _ name hk).trimEnd (head?_newName hslash)
      obtain ⟨hin, -⟩ := find?_of_stopped hnode hnames.nodup (hnames.hasFile hname) hslash
        (hapart.not_mem (by decide)) hsplit hmoved htree (hfits.old name hname) hnew hrefused
      rw [hapart.find?_newName] at hin
      cases hin
    | unwritten hwide =>
      exact absurd hwide (hfits.not_wide (getElem?_of_split hsplit))
  | @through middle moved done rest result _ hmoved _ hlists hsplit hmoved' _ htree hends =>
    have hinterim := moved_eq_interim hnames hwidth hfits.interim hmoved hlists
    subst hinterim
    have hdone : done = (interim temporary width start names).take done.length := by
      rw [hsplit, List.take_left]
    have hhalfway :
        Moved place (halfway stem temporary width start names done.length) disk disk' := by
      refine (hmoved.trans hmoved').congr fun name hfile => ?_
      rw [Function.comp_apply, ← assigned_interim hapart hnames hwidth hfile, ← hdone]
    refine ⟨done.length, hhalfway, ?_⟩
    cases hends with
    | all =>
      refine .inl ⟨?_, by rw [length_interim]; rfl⟩
      have hlength := congrArg List.length hsplit
      rwa [length_interim, List.append_nil, eq_comm] at hlength
    | @stopped name rest refusal hrefused =>
      have hk := getElem?_of_split hsplit
      have hfile := hlists.hasFile (List.mem_of_getElem? hk)
      obtain ⟨old, hold, rfl⟩ := exists_of_getElem?_interim hk
      have hnul := hfits.nul (List.ne_nil_of_mem (List.mem_of_getElem? hold))
      have hfinal := hfits.final _ old hold
      rw [← hapart.newName_newName (start + done.length)] at hfinal
      obtain ⟨hin, rfl⟩ := find?_of_stopped (hmoved.node hnode) hlists.nodup hfile hapart.slash hnul
        hsplit hmoved' htree ((hfits.interim _ old hold).of_limits hmoved.limits)
        (hfinal.of_limits hmoved.limits) hrefused
      rw [hmoved.directory, hapart.newName_newName] at hin
      exact .inr ⟨old, hold, hin, rfl⟩
    | unwritten hwide =>
      obtain ⟨old, hold, -⟩ := exists_of_getElem?_interim (getElem?_of_split hsplit)
      exact absurd hwide (hfits.not_wide hold)

theorem halfway_all : halfway stem temporary width start names names.length =
    assigned stem width start names := by
  funext name
  rw [halfway, List.take_length]
  split
  · rfl
  · rw [assigned_of_not_mem ‹_›, assigned_of_not_mem ‹_›]

/-- With no directory in the way both passes come to their end. -/
theorem Course.completes_of_fits {widened : Bool} {result : Except Fault Renumbering}
    (h : Course directory stem temporary place start width widened names disk result disk')
    (hapart : Apart disk place temporary stem)
    (hnode : disk.node directory = .ok (place, .directory))
    (hnames : disk.Lists directory place names)
    (hwidth : neededDigits start names.length ≤ width)
    (hfits : Fits disk directory stem temporary width start names)
    (htargets : ∀ k name, names[k]? = some name →
      disk.find? (place ++ [newName stem width (start + k) name]) ≠ some .directory) :
    result = .ok ⟨names.length, width, widened⟩ ∧
      Moved place (assigned stem width start names) disk disk' := by
  obtain ⟨i, hmoved, ⟨rfl, hresult⟩ | ⟨name, hk, hin, -⟩⟩ :=
    h.ends hapart hnode hnames hwidth hfits
  · rw [halfway_all] at hmoved
    exact ⟨hresult, hmoved⟩
  · exact absurd hin (htargets i name hk)

/-- No directory has a new name that a file has got. -/
theorem find?_ne_directory (hmoved : Moved place (halfway stem temporary width start names i)
      disk disk') (hnames : disk.Lists directory place names) (hk : names[k]? = some name)
    (hki : k < i) :
    disk.find? (place ++ [newName stem width (start + k) name]) ≠ some .directory := by
  intro hin
  obtain ⟨content, hfind⟩ := hmoved.hasFile (hnames.hasFile (List.mem_of_getElem? hk))
  rw [halfway_of_getElem? hnames.nodup hk, if_pos hki, (hmoved.directory _).2 hin] at hfind
  cases hfind

/-- Where all files are listed, those with names that are not too long stay in sight. -/
theorem Fits.inSight (hfits : Fits disk directory stem temporary width start names)
    (hnodup : names.Nodup) (hall : ∀ name, disk.HasFile place name → name ∈ names)
    (hmoved : Moved place (assigned temporary width start names) disk middle) :
    InSight middle directory place := by
  intro name hfile _
  obtain ⟨old, rfl, hold⟩ := hmoved.hasFile_iff.1 hfile
  obtain ⟨k, hk⟩ := List.mem_iff_getElem?.1 (hall old hold)
  rw [assigned_of_getElem? hnodup hk]
  exact (hfits.interim k old hk).of_limits hmoved.limits

theorem Fits.lists (hfits : Fits disk directory stem temporary width start names)
    (hsorted : names.Pairwise (· < ·)) (hnames : ∀ name, name ∈ names ↔ disk.HasFile place name) :
    disk.Lists directory place names := by
  refine ⟨hsorted, fun name => ?_⟩
  rw [hnames, iff_self_and, ← hnames]
  exact fun hname => (hfits.old name hname).path

/-- With nothing in the way every file gets its new name. -/
theorem run_of_fits {start : Word} (htree : disk.IsTree)
    (hnode : disk.node directory = .ok (place, .directory)) (hsorted : names.Pairwise (· < ·))
    (hnames : ∀ name, name ∈ names ↔ disk.HasFile place name)
    (hapart : Apart disk place temporary stem) (hstart : 0 ≤ start.val)
    (hwidth : width = max digits (neededDigits start.val.toNat names.length))
    (hfits : Fits disk directory stem temporary width start.val.toNat names)
    (htargets : ∀ k name, names[k]? = some name →
      disk.find? (place ++ [newName stem width (start.val.toNat + k) name]) ≠ some .directory) :
    ∃ disk', (run Disk.files directory stem start digits temporary).run disk =
        (.ok ⟨names.length, width, decide (digits < neededDigits start.val.toNat names.length)⟩,
          disk') ∧ disk'.IsTree ∧
      Moved place (assigned stem width start.val.toNat names) disk disk' := by
  have hlists : disk.Lists directory place names := hfits.lists hsorted hnames
  obtain ⟨result, disk', hrun, hcourse⟩ := renumber_course_of_inSight hwidth hapart
    (fun _ => hfits.inSight hlists.nodup fun name => (hnames name).2) htree hnode hlists
  obtain ⟨rfl, hmoved⟩ := hcourse.completes_of_fits hapart hnode hlists
    (hwidth ▸ Nat.le_max_right _ _) hfits htargets
  exact ⟨disk', by rw [run_eq, if_neg (Int.not_lt.2 hstart), hrun], hcourse.isTree, hmoved⟩

/-- If a directory has the new name of a file, the renumbering ends at the first such file. The
files before it have their new names by then, it and those after it the temporary ones, and all of
them their contents. -/
theorem run_stops_at_directory {start : Word} {last : Nat} (htree : disk.IsTree)
    (hnode : disk.node directory = .ok (place, .directory))
    (hsorted : names.Pairwise fun name name' => utf8 name < utf8 name')
    (hnames : ∀ name, name ∈ names ↔ disk.HasFile place name)
    (hapart : Apart disk place temporary stem)
    (hstart : 0 ≤ start.val) (hlast : last = start.val.toNat + (names.length - 1))
    (hwidth : width = max digits (Nat.toDigits 10 last).length)
    (hfits : Fits disk directory stem temporary width start.val.toNat names)
    (hk : names[k]? = some name)
    (hin : disk.find? (place ++ [newName stem width (start.val.toNat + k) name]) =
      some .directory)
    (hleast : ∀ j < k, ∀ name, names[j]? = some name →
      disk.find? (place ++ [newName stem width (start.val.toNat + j) name]) ≠ some .directory) :
    ∃ disk', (run Disk.files directory stem start digits temporary).run disk =
        (.error (.file (.failed
          (Path.join directory (newName temporary width (start.val.toNat + k) name))
          Disk.isDirectory.text)), disk') ∧
      (∀ j name, names[j]? = some name →
        disk'.find? (place ++ [newName (if j < k then stem else temporary) width
          (start.val.toNat + j) name]) = disk.find? (place ++ [name])) ∧
      (∀ name', disk'.HasFile place name' → ∃ j name, names[j]? = some name ∧
        name' = newName (if j < k then stem else temporary) width (start.val.toNat + j) name) ∧
      (∀ name, disk'.find? (place ++ [name]) = some .directory ↔
        disk.find? (place ++ [name]) = some .directory) ∧
      (∀ p, (∀ name, p ≠ place ++ [name]) → disk'.find? p = disk.find? p) := by
  subst hlast
  have hlists : disk.Lists directory place names :=
    hfits.lists (hsorted.imp utf8_lt_iff.1) hnames
  obtain ⟨result, disk', hrun, hcourse⟩ := renumber_course_of_inSight hwidth hapart
    (fun _ => hfits.inSight hlists.nodup fun name => (hnames name).2) htree hnode hlists
  obtain ⟨i, hmoved, hend⟩ :=
    hcourse.ends hapart hnode hlists (hwidth ▸ Nat.le_max_right _ _) hfits
  have hki : ¬ k < i := fun hlt => find?_ne_directory hmoved hlists hk hlt hin
  have hlength : k < names.length := (List.getElem?_eq_some_iff.1 hk).1
  obtain ⟨rfl, -⟩ | ⟨other, hi, hin', rfl⟩ := hend
  · exact absurd hlength hki
  obtain rfl : i = k := by
    rcases Nat.lt_trichotomy i k with hlt | heq | hgt
    · exact absurd hin' (hleast i hlt other hi)
    · exact heq
    · exact absurd hgt hki
  obtain rfl : other = name := Option.some.inj (hi.symm.trans hk)
  have hgoes {j : Nat} {name : String} (hj : names[j]? = some name) :
      halfway stem temporary width start.val.toNat names i name =
        newName (if j < i then stem else temporary) width (start.val.toNat + j) name :=
    halfway_of_getElem? hlists.nodup hj
  refine ⟨disk', ?_, fun j name hj => ?_, fun name' hfile => ?_, hmoved.directory, hmoved.elsewhere⟩
  · rw [run_eq, if_neg (Int.not_lt.2 hstart), hrun]
  · obtain ⟨content, hfind⟩ := (hnames name).1 (List.mem_of_getElem? hj)
    rw [hfind]
    exact (hmoved.file _ content).2 ⟨name, hgoes hj, hfind⟩
  · obtain ⟨name, rfl, hold⟩ := hmoved.hasFile_iff.1 hfile
    obtain ⟨j, hj⟩ := List.mem_iff_getElem?.1 ((hnames name).2 hold)
    exact ⟨j, name, hj, hgoes hj⟩

/-- Where no directory begins with the stem none has a new name. -/
theorem find?_newName_ne_directory {n : Nat}
    (h : ∀ entry ∈ disk.entries, entry.2.isDirectory → ∀ name ∈ entry.1, ¬ HasStem stem name) :
    disk.find? (place ++ [newName stem width n name]) ≠ some .directory := by
  intro hfind
  have hentry := Disk.mem_entries_of_find? (by simp) hfind
  exact h _ hentry rfl _ (List.mem_append_right place List.mem_cons_self) hasStem_newName

/-- Three files, and a directory that has the name which the second is to get. -/
def crowded : Disk where
  entries := [(["d"], .directory), (["d", "c.txt"], .file "C".toUTF8),
    (["d", "x-1"], .directory), (["d", "a"], .file "A".toUTF8), (["d", "b"], .file "B".toUTF8),
    (["d", "x-1", "k"], .file "K".toUTF8)]
  workingDirectory := []
  limits := some .usual

theorem crowded_isTree : crowded.IsTree := ⟨by decide, by decide⟩

theorem crowded_node : crowded.node "d" = .ok (["d"], .directory) := rfl

theorem crowded_hasFile_iff : name ∈ ["a", "b", "c.txt"] ↔ crowded.HasFile ["d"] name := by
  constructor
  · revert name
    simp only [List.forall_mem_cons]
    exact ⟨⟨_, rfl⟩, ⟨_, rfl⟩, ⟨_, rfl⟩, nofun⟩
  · rintro ⟨content, hfind⟩
    have hentry := Disk.mem_entries_of_find? (by simp) hfind
    simp [crowded] at hentry
    rcases hentry with ⟨rfl, -⟩ | ⟨rfl, -⟩ | ⟨rfl, -⟩ <;> decide

theorem run_stops_in_crowded :
    ∃ disk', (run Disk.files "d" "x" ⟨0, by decide, by decide⟩ 1 "aaaaaaaaaa").run crowded =
        (.error (.file (.failed "d/aaaaaaaaaa-1" "Is a directory (os error 21)")), disk') ∧
      disk'.find? ["d", "x-0"] = some (.file "A".toUTF8) ∧
      disk'.find? ["d", "aaaaaaaaaa-1"] = some (.file "B".toUTF8) ∧
      disk'.find? ["d", "aaaaaaaaaa-2.txt"] = some (.file "C".toUTF8) ∧
      disk'.find? ["d", "x-1", "k"] = some (.file "K".toUTF8) := by
  have hfits : Fits crowded "d" "x" "aaaaaaaaaa" 1 0 ["a", "b", "c.txt"] := by
    refine ⟨fun _ => by decide, fun _ => by decide, ?_, fun k name hk => ?_, fun k name hk => ?_⟩
    · simp only [List.forall_mem_cons]
      exact ⟨⟨rfl, rfl⟩, ⟨rfl, rfl⟩, ⟨rfl, rfl⟩, nofun⟩
    all_goals
      match k, hk with
      | 0, rfl => exact ⟨rfl, rfl⟩
      | 1, rfl => exact ⟨rfl, rfl⟩
      | 2, rfl => exact ⟨rfl, rfl⟩
  have hapart : Apart crowded ["d"] "aaaaaaaaaa" "x" :=
    ⟨letters_of_all (by decide), not_hasStem_of_entries (by decide), by decide, by decide⟩
  have hleast (j : Nat) (hj : j < 1) (name : String) (hname : ["a", "b", "c.txt"][j]? = some name) :
      crowded.find? (["d"] ++ [newName "x" 1 (0 + j) name]) ≠ some .directory := by
    obtain rfl : j = 0 := by omega
    obtain rfl : "a" = name := Option.some.inj hname
    have hnone : crowded.find? (["d"] ++ [newName "x" 1 0 "a"]) = none := rfl
    rw [hnone]
    nofun
  have hstart : 0 ≤ (⟨0, by decide, by decide⟩ : Word).val := by decide
  have hwidth : 1 = max 1 (Nat.toDigits 10 2).length := by decide
  have hk : ["a", "b", "c.txt"][1]? = some "b" := rfl
  obtain ⟨disk', hrun, hcontents, -, -, helsewhere⟩ := run_stops_at_directory crowded_isTree
    crowded_node (by decide) (fun _ => crowded_hasFile_iff) hapart hstart rfl hwidth hfits hk rfl
    hleast
  exact ⟨disk', hrun, hcontents 0 "a" rfl, hcontents 1 "b" rfl, hcontents 2 "c.txt" rfl,
    helsewhere ["d", "x-1", "k"] (by simp)⟩

end Renumbering

end ClockCalc
