import ClockCalc.Draw
import ClockCalc.Proofs.Moves
import ClockCalc.Proofs.NewNames

/-! One pass of a renumbering over the listed files of a directory. It moves them one after the
other, and goes wrong only by stopping, as long as no file is moved to the name of another. That
needs to be known of the disk before the pass only: a name that is still to be taken may be that of
a file which is moved away in time. -/

namespace ClockCalc

theorem run_bind {ε σ α β : Type} (x : ExceptT ε (StateM σ) α) (f : α → ExceptT ε (StateM σ) β)
    (s : σ) :
    (x >>= f).run.run s = match x.run.run s with
      | (.ok a, s') => (f a).run.run s'
      | (.error e, s') => (.error e, s') := by
  rw [ExceptT.run_bind, StateT.run_bind]
  generalize x.run.run s = outcome
  rcases outcome with ⟨_ | _, s'⟩ <;> rfl

theorem run_liftM {ε σ α : Type} (x : StateM σ α) (s : σ) :
    (liftM x : ExceptT ε (StateM σ) α).run.run s = (.ok (x.run s).1, (x.run s).2) := rfl

namespace Disk

variable {disk disk' : Disk} {directory : String} {place : Place} {names names' : List String}

theorem run_rename (source target : String) :
    (files.rename source target).run disk = match disk.rename source target with
      | .ok disk' => (.ok (), disk')
      | .error refusal => (.error refusal, disk) := by
  simp only [files, StateT.run_bind, StateT.run_get, pure_bind]
  cases disk.rename source target <;> rfl

/-- The files of a directory in order, those with too long a path apart. -/
structure Lists (disk : Disk) (directory : String) (place : Place) (names : List String) :
    Prop where
  sorted : names.Pairwise (· < ·)
  mem : ∀ name, name ∈ names ↔
    disk.HasFile place name ∧ disk.pathTooLong (Path.join directory name) = false

theorem Lists.nodup (h : disk.Lists directory place names) : names.Nodup :=
  h.sorted.imp fun {a b} (hlt : a < b) (heq : a = b) => String.lt_irrefl b (heq ▸ hlt)

theorem Lists.hasFile (h : disk.Lists directory place names) {name : String}
    (hname : name ∈ names) : disk.HasFile place name :=
  ((h.mem name).1 hname).1

theorem Lists.eq (h : disk.Lists directory place names) (h' : disk.Lists directory place names') :
    names = names' := by
  have hperm : names.Perm names' := (List.perm_ext_iff_of_nodup h.nodup h'.nodup).2 fun name =>
    (h.mem name).trans (h'.mem name).symm
  exact hperm.eq_of_pairwise (fun a b _ _ hab hba => absurd hab (String.lt_asymm hba))
    h.sorted h'.sorted

end Disk

namespace Renumbering

open Disk (HasFile Moved Lists)

variable {disk disk' : Disk} {directory stem temporary name : String} {place : Place}
  {names moved : List String} {width n k : Nat}

theorem run_sortedNames : (sortedNames Disk.files directory).run.run disk =
    (match disk.names directory with
      | .ok found => .ok (found.mergeSort fun a b => decide (a ≤ b))
      | .error refusal => .error (.file (.failed directory refusal.text)), disk) := by
  have hrun : (Disk.files.names directory).run disk = (disk.names directory, disk) := rfl
  rw [sortedNames, run_bind, run_liftM, hrun]
  cases disk.names directory <;> rfl

theorem sortedNames_lists (htree : disk.IsTree)
    (h : disk.node directory = .ok (place, .directory)) :
    ∃ names, disk.Lists directory place names ∧
      (sortedNames Disk.files directory).run.run disk = (.ok names, disk) := by
  obtain ⟨found, hfound, hnodup, hmem⟩ := Disk.names_of_directory htree h
  refine ⟨found.mergeSort fun a b => decide (a ≤ b), ⟨?_, ?_⟩, ?_⟩
  · have hle := @List.pairwise_mergeSort String (fun a b => decide (a ≤ b))
      (by simpa using fun a b c => String.le_trans) (by simpa using String.le_total) found
    have hne := (List.mergeSort_perm found fun a b => decide (a ≤ b)).nodup_iff.2 hnodup
    exact (hle.and hne).imp fun ⟨hle, hne⟩ =>
      Std.lt_of_le_of_ne (of_decide_eq_true hle) hne
  · intro name
    rw [List.mem_mergeSort, hmem]
  · rw [run_sortedNames, hfound]

theorem renameAll_nil :
    (renameAll Disk.files directory stem width n []).run.run disk = (.ok (), disk) := rfl

/-- With too many digits the first file is already too much. -/
theorem renameAll_of_wide (hwide : widest < width) :
    (renameAll Disk.files directory stem width n (name :: names)).run.run disk =
      (.error (.tooWide width), disk) := by
  rw [renameAll, if_pos hwide]
  rfl

theorem renameAll_cons (hwritten : width ≤ widest) :
    (renameAll Disk.files directory stem width n (name :: names)).run.run disk =
      match disk.renameIn directory name (newName stem width n name) with
      | .ok disk' => (renameAll Disk.files directory stem width (n + 1) names).run.run disk'
      | .error refusal =>
        (.error (.file (.failed (Path.join directory name) refusal.text)), disk) := by
  rw [renameAll, if_neg (Nat.not_lt.2 hwritten), run_bind, run_liftM, Disk.run_rename]
  rw [Disk.renameIn]
  cases disk.rename (Path.join directory name)
      (Path.join (Path.trimEnd directory) (newName stem width n name)) <;> rfl

/-- Where the files go that are renamed from a number on. The others stay. -/
def assigned (stem : String) (width : Nat) : Nat → List String → String → String
  | _, [], name => name
  | n, first :: names, name =>
    if name = first then newName stem width n first
    else assigned stem width (n + 1) names name

theorem assigned_of_not_mem (h : name ∉ names) : assigned stem width n names name = name := by
  induction names generalizing n with
  | nil => rfl
  | cons first names ih =>
    obtain ⟨hne, hrest⟩ := not_or.1 (mt List.mem_cons.2 h)
    rw [assigned, if_neg hne, ih hrest]

theorem assigned_of_getElem? (hnodup : names.Nodup) (h : names[k]? = some name) :
    assigned stem width n names name = newName stem width (n + k) name := by
  induction names generalizing n k with
  | nil => cases h
  | cons first names ih =>
    obtain ⟨hfirst, hrest⟩ := List.nodup_cons.1 hnodup
    cases k with
    | zero =>
      obtain rfl : first = name := Option.some.inj h
      exact if_pos rfl
    | succ k =>
      have hne : name ≠ first := fun heq => hfirst (heq ▸ List.mem_of_getElem? h)
      rw [assigned, if_neg hne, ih hrest h, Nat.add_assoc, Nat.add_comm 1]

theorem assigned_comp {first : String} (h : newName stem width n first ∉ names) :
    assigned stem width (n + 1) names (assigned stem width n [first] name) =
      assigned stem width n (first :: names) name := by
  rw [assigned, assigned, assigned]
  split
  · exact assigned_of_not_mem h
  · rfl

/-- What a pass needs: a new name that can be taken belongs to no file, but to one of the list whose
turn is over or has come. -/
structure Ready (directory stem : String) (place : Place) (width n : Nat) (names : List String)
    (disk : Disk) : Prop where
  tree : disk.IsTree
  node : disk.node directory = .ok (place, .directory)
  slash : '/' ∉ stem.toList
  files : ∀ name ∈ names, disk.HasFile place name
  nodup : names.Nodup
  wide : ∀ k < names.length, (Numeral.digits (n + k)).length ≤ width
  fresh : ∀ k name, names[k]? = some name → disk.HasFile place (newName stem width (n + k) name) →
    disk.Admits (Path.trimEnd directory) (newName stem width (n + k) name) →
    newName stem width (n + k) name ∈ names.take (k + 1)

/-- A file that a pass has renamed could be reached under its old name, and its new one could be
written and reached. -/
structure Takes (directory stem : String) (width n : Nat) (name : String) (disk : Disk) :
    Prop where
  written : width ≤ widest
  old : disk.Admits directory name
  new : disk.Admits (Path.trimEnd directory) (newName stem width n name)

/-- All files that a pass has renamed. -/
def Taken (directory stem : String) (width n : Nat) (done : List String) (disk : Disk) : Prop :=
  ∀ k name, done[k]? = some name → Takes directory stem width (n + k) name disk

/-- How a pass ends: with the list, or at a file that cannot be renamed, or whose new name cannot be
written. -/
inductive Ends (directory stem : String) (width n : Nat) (disk : Disk) :
    List String → Except Fault Unit → Prop
  | all : Ends directory stem width n disk [] (.ok ())
  | stopped {name rest refusal} :
      disk.renameIn directory name (newName stem width n name) = .error refusal →
      Ends directory stem width n disk (name :: rest)
        (.error (.file (.failed (Path.join directory name) refusal.text)))
  | unwritten {name rest} : widest < width →
      Ends directory stem width n disk (name :: rest) (.error (.tooWide width))

theorem Ready.isName (h : Ready directory stem place width n names disk) (hname : name ∈ names) :
    Path.IsName name ∧ '\x00' ∉ name.toList := by
  obtain ⟨content, hfind⟩ := h.files name hname
  exact h.tree.names_of_find? (hfind ▸ Option.some_ne_none _) (by simp)

theorem Ready.newName_isName (h : Ready directory stem place width n names disk)
    (hname : name ∈ names) : Path.IsName (newName stem width k name) :=
  isName_newName h.slash (h.isName hname).1.slash

theorem Ready.eq_of_hasFile (h : Ready directory stem place width n (name :: names) disk)
    (hadmits : disk.Admits (Path.trimEnd directory) (newName stem width n name))
    (hfile : disk.HasFile place (newName stem width n name)) : newName stem width n name = name :=
  List.mem_singleton.1 (h.fresh 0 name rfl hfile hadmits)

theorem Ready.takes (h : Ready directory stem place width n (name :: names) disk)
    (hwritten : width ≤ widest)
    (hrename : disk.renameIn directory name (newName stem width n name) = .ok disk') :
    Takes directory stem width n name disk := by
  have hself : name ∈ name :: names := List.mem_cons_self
  obtain ⟨-, -, hold, hnew, -, -⟩ :=
    (Disk.renameIn_eq_ok_iff h.node (h.isName hself).1 (h.newName_isName hself)).1 hrename
  exact ⟨hwritten, hold, hnew⟩

/-- One renaming leaves what the rest of the pass needs. -/
theorem Ready.step (h : Ready directory stem place width n (name :: names) disk)
    (hrename : disk.renameIn directory name (newName stem width n name) = .ok disk') :
    Moved place (assigned stem width n [name]) disk disk' ∧
      newName stem width n name ∉ names ∧
      Ready directory stem place width (n + 1) names disk' := by
  have hself : name ∈ name :: names := List.mem_cons_self
  obtain ⟨hnew, hnodup⟩ := List.nodup_cons.1 h.nodup
  obtain ⟨content, hfind, -, hadmits, hfree, rfl⟩ :=
    (Disk.renameIn_eq_ok_iff h.node (h.isName hself).1 (h.newName_isName hself)).1 hrename
  have hmoved : Moved place (assigned stem width n [name]) disk _ :=
    Disk.moved_move hfind hfree (h.eq_of_hasFile hadmits)
  have hnot : newName stem width n name ∉ names := fun hmem =>
    hnew (h.eq_of_hasFile hadmits (h.files _ (List.mem_cons_of_mem _ hmem)) ▸ hmem)
  refine ⟨hmoved, hnot, ?_, hmoved.node h.node, h.slash, fun other hother => ?_, hnodup,
    fun k hk => ?_, fun k other hother hfile hadmits' => ?_⟩
  · exact h.tree.move (hfind ▸ Option.some_ne_none _) (h.newName_isName hself) hadmits.nul
  · have hne : other ≠ name := fun heq => hnew (heq ▸ hother)
    have hfile := hmoved.hasFile (h.files other (List.mem_cons_of_mem _ hother))
    rwa [assigned, if_neg hne] at hfile
  · have := h.wide (k + 1) (Nat.succ_lt_succ hk)
    rwa [← Nat.add_assoc, Nat.add_right_comm] at this
  · have hcomm : n + 1 + k = n + (k + 1) := by omega
    rw [hcomm] at hfile hadmits' ⊢
    obtain ⟨old, hold, hfile⟩ := hmoved.hasFile_iff.1 hfile
    rw [assigned, assigned] at hold
    split at hold
    · -- the name was just taken, with another number
      have hk : k + 1 < (name :: names).length :=
        Nat.succ_lt_succ (List.getElem?_eq_some_iff.1 hother).1
      have := eq_of_newName_eq (h.wide 0 (Nat.succ_pos _)) (h.wide _ hk) hold
      omega
    · subst hold
      have hmem := h.fresh (k + 1) other hother hfile ⟨hadmits'.nul, hadmits'.path, hadmits'.name⟩
      rw [List.take_succ_cons, List.mem_cons] at hmem
      exact hmem.resolve_left ‹_›

theorem Takes.of_limits (hlimits : disk'.limits = disk.limits)
    (h : Takes directory stem width n name disk) : Takes directory stem width n name disk' :=
  ⟨h.written, h.old.of_limits hlimits, h.new.of_limits hlimits⟩

theorem taken_nil : Taken directory stem width n [] disk := nofun

theorem taken_cons (h : Takes directory stem width n name disk)
    (hrest : Taken directory stem width (n + 1) names disk) :
    Taken directory stem width n (name :: names) disk := by
  intro k other hk
  cases k with
  | zero =>
    obtain rfl : name = other := Option.some.inj hk
    exact h
  | succ k =>
    have hcomm : n + 1 + k = n + (k + 1) := by omega
    have := hrest k other hk
    rwa [hcomm] at this

/-- A pass moves the files up to where it ends, by induction on the list. -/
theorem renameAll_moves (h : Ready directory stem place width n names disk) :
    ∃ done rest result disk', names = done ++ rest ∧
      (renameAll Disk.files directory stem width n names).run.run disk = (result, disk') ∧
      Ends directory stem width (n + done.length) disk' rest result ∧ disk'.IsTree ∧
      Taken directory stem width n done disk ∧
      Moved place (assigned stem width n done) disk disk' := by
  induction names generalizing n disk with
  | nil => exact ⟨[], [], _, disk, rfl, renameAll_nil, .all, h.tree, taken_nil, .refl place disk⟩
  | cons name names ih =>
    rcases Nat.lt_or_ge widest width with hwide | hwritten
    · exact ⟨[], name :: names, _, disk, rfl, renameAll_of_wide hwide, .unwritten hwide, h.tree,
        taken_nil, .refl place disk⟩
    rw [renameAll_cons hwritten]
    cases hrename : disk.renameIn directory name (newName stem width n name) with
    | error refusal =>
      exact ⟨[], name :: names, _, disk, rfl, rfl, .stopped hrename, h.tree, taken_nil,
        .refl place disk⟩
    | ok disk' =>
      obtain ⟨hmoved, hnot, hready⟩ := h.step hrename
      obtain ⟨done, rest, result, disk'', rfl, hrun, hends, htree, htaken, hmoved'⟩ := ih hready
      refine ⟨name :: done, rest, result, disk'', rfl, hrun, ?_, htree, ?_, ?_⟩
      · rwa [List.length_cons, Nat.add_comm done.length, ← Nat.add_assoc]
      · exact taken_cons (h.takes hwritten hrename) fun k name hk =>
          (htaken k name hk).of_limits hmoved.limits.symm
      · refine (hmoved.trans hmoved').congr fun other _ => ?_
        exact assigned_comp fun hmem => hnot (List.mem_append_left _ hmem)

end Renumbering

end ClockCalc
