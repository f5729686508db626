import ClockCalc.Proofs.Paths

/-! What moving files about inside one directory leaves of a disk. Every file there goes to a name
of its own and keeps its content; all the rest stays. Such moves compose. -/

namespace ClockCalc

namespace Disk

open ClockCalc.Path (IsName)

variable {disk disk' disk'' : Disk} {directory name old new : String} {place p q : Place}
  {content : ByteArray} {f g : String → String}

/-- Every node has a place of its own, and names lead there. -/
structure IsTree (disk : Disk) : Prop where
  places : (disk.entries.map Prod.fst).Nodup
  names : ∀ entry ∈ disk.entries, ∀ name ∈ entry.1, IsName name ∧ '\x00' ∉ name.toList

def HasFile (disk : Disk) (place : Place) (name : String) : Prop :=
  ∃ content, disk.find? (place ++ [name]) = some (.file content)

theorem find?_of_ne_nil (hp : p ≠ []) : disk.find? p = disk.entries.lookup p := by
  cases p with
  | nil => exact absurd rfl hp
  | cons name p => rfl

theorem mem_entries_of_find? {node : Node} (hp : p ≠ []) (h : disk.find? p = some node) :
    (p, node) ∈ disk.entries := by
  rw [find?_of_ne_nil hp, List.lookup_eq_some_iff] at h
  obtain ⟨before, after, hentries, -⟩ := h
  rw [hentries]
  simp

theorem IsTree.find?_of_mem {node : Node} (h : disk.IsTree) (hp : p ≠ [])
    (hmem : (p, node) ∈ disk.entries) : disk.find? p = some node := by
  obtain ⟨before, after, hentries⟩ := List.append_of_mem hmem
  have hplaces := h.places
  rw [hentries, List.map_append, List.nodup_append] at hplaces
  rw [find?_of_ne_nil hp, List.lookup_eq_some_iff]
  refine ⟨before, after, hentries, fun entry hentry => bne_iff_ne.2 fun heq => ?_⟩
  exact hplaces.2.2 entry.1 (List.mem_map_of_mem hentry) p (by simp) heq.symm

theorem exists_mem_entries (hfind : disk.find? p ≠ none) (hname : name ∈ p) :
    ∃ entry ∈ disk.entries, name ∈ entry.1 := by
  obtain ⟨node, hfind⟩ := Option.ne_none_iff_exists'.1 hfind
  exact ⟨(p, node), mem_entries_of_find? (List.ne_nil_of_mem hname) hfind, hname⟩

theorem IsTree.names_of_find? (h : disk.IsTree) (hfind : disk.find? p ≠ none) (hname : name ∈ p) :
    IsName name ∧ '\x00' ∉ name.toList := by
  obtain ⟨entry, hentry, hmem⟩ := exists_mem_entries hfind hname
  exact h.names entry hentry name hmem

theorem nameIn?_eq_some_iff {entry : Place × Node} :
    nameIn? place entry = some name ↔ ∃ content, entry = (place ++ [name], .file content) := by
  obtain ⟨p, node⟩ := entry
  cases node with
  | directory => simp [nameIn?]
  | file content =>
    rw [nameIn?]
    constructor
    · intro h
      split at h
      · obtain ⟨before, rfl⟩ := List.getLast?_eq_some_iff.1 h
        exact ⟨content, by simp_all⟩
      · cases h
    · rintro ⟨content, hentry⟩
      cases hentry
      simp

/-- A listing has the files, each of them once, as far as their paths are not too long. -/
theorem names_of_directory (htree : disk.IsTree)
    (h : disk.node directory = .ok (place, .directory)) :
    ∃ found, disk.names directory = .ok found ∧ found.Nodup ∧ ∀ name, name ∈ found ↔
      disk.HasFile place name ∧ disk.pathTooLong (Path.join directory name) = false := by
  refine ⟨_, by rw [names, h]; rfl, ?_, fun name => ?_⟩
  · refine List.Pairwise.filter _ (List.pairwise_filterMap.2 ?_)
    refine (List.pairwise_map.1 htree.places).imp fun {e e'} hne name hname name' hname' => ?_
    obtain ⟨_, rfl⟩ := nameIn?_eq_some_iff.1 hname
    obtain ⟨_, rfl⟩ := nameIn?_eq_some_iff.1 hname'
    simpa using hne
  · have hmem : name ∈ disk.entries.filterMap (nameIn? place) ↔ disk.HasFile place name := by
      rw [List.mem_filterMap]
      constructor
      · rintro ⟨entry, hentry, hname⟩
        obtain ⟨content, rfl⟩ := nameIn?_eq_some_iff.1 hname
        exact ⟨content, htree.find?_of_mem (by simp) hentry⟩
      · rintro ⟨content, hfind⟩
        exact ⟨_, mem_entries_of_find? (by simp) hfind, nameIn?_eq_some_iff.2 ⟨content, rfl⟩⟩
    rw [List.mem_filter, hmem, Bool.not_eq_true']

theorem lookup_filter_ne (entries : List (Place × Node)) :
    (entries.filter fun entry => entry.1 ≠ p).lookup q =
      if q = p then none else entries.lookup q := by
  induction entries with
  | nil => simp
  | cons entry entries ih =>
    obtain ⟨r, node⟩ := entry
    by_cases hr : r = p
    · subst hr
      rw [List.filter_cons_of_neg (by simp), ih, List.lookup_cons]
      cases hq : q == r <;> simp_all
    · rw [List.filter_cons_of_pos (by simpa using hr), List.lookup_cons, List.lookup_cons, ih]
      cases hq : q == r <;> simp_all

theorem find?_erase (hp : p ≠ []) :
    (disk.erase p).find? q = if q = p then none else disk.find? q := by
  by_cases hq : q = []
  · subst hq
    rw [if_neg hp.symm]
    rfl
  · rw [find?_of_ne_nil hq, find?_of_ne_nil hq]
    exact lookup_filter_ne disk.entries

theorem find?_insert {node : Node} (hp : p ≠ []) :
    (disk.insert p node).find? q = if q = p then some node else disk.find? q := by
  by_cases hq : q = []
  · subst hq
    rw [if_neg hp.symm]
    rfl
  · have herase := @find?_erase disk p q hp
    rw [find?_of_ne_nil hq] at herase ⊢
    rw [insert, List.lookup_append, herase, List.lookup_cons, List.lookup_nil]
    cases hqp : q == p <;> simp_all

/-- The disk with a file moved. -/
def move (disk : Disk) (old new : Place) (content : ByteArray) : Disk :=
  (disk.erase old).insert new (.file content)

theorem find?_move (hp : p ≠ []) (hq : q ≠ []) (r : Place) :
    (disk.move p q content).find? r =
      if r = q then some (.file content) else if r = p then none else disk.find? r := by
  rw [move, find?_insert hq, find?_erase hp]

theorem IsTree.erase (h : disk.IsTree) : (disk.erase p).IsTree where
  places := h.places.sublist (List.filter_sublist.map _)
  names := fun entry hentry => h.names entry (List.mem_filter.1 hentry).1

theorem IsTree.insert {node : Node} (h : disk.IsTree)
    (hp : ∀ name ∈ p, IsName name ∧ '\x00' ∉ name.toList) : (disk.insert p node).IsTree := by
  have herase := h.erase (p := p)
  constructor
  · rw [Disk.insert, List.map_append, List.nodup_append]
    refine ⟨herase.places, List.nodup_cons.2 ⟨List.not_mem_nil, List.nodup_nil⟩, ?_⟩
    rintro q hq _ hp rfl
    obtain ⟨entry, hentry, rfl⟩ := List.mem_map.1 hq
    have hne : entry.1 ≠ p := by simpa using (List.mem_filter.1 hentry).2
    exact hne (List.mem_singleton.1 hp)
  · rw [Disk.insert, List.forall_mem_append, List.forall_mem_singleton]
    exact ⟨herase.names, hp⟩

theorem IsTree.move (h : disk.IsTree) (hfind : disk.find? (place ++ [old]) ≠ none)
    (hname : IsName new) (hnul : '\x00' ∉ new.toList) :
    (disk.move (place ++ [old]) (place ++ [new]) content).IsTree := by
  refine h.erase.insert (List.forall_mem_append.2 ⟨fun name hmem => ?_, ?_⟩)
  · exact h.names_of_find? hfind (List.mem_append_left _ hmem)
  · exact List.forall_mem_singleton.2 ⟨hname, hnul⟩

/-- The renaming of an entry of a directory. The path of its new name starts at the trimmed one. -/
def renameIn (disk : Disk) (directory old new : String) : Except Files.Refusal Disk :=
  disk.rename (Path.join directory old) (Path.join (Path.trimEnd directory) new)

theorem renameIn_eq_ok_iff (h : disk.node directory = .ok (place, .directory)) (hold : IsName old)
    (hnew : IsName new) :
    disk.renameIn directory old new = .ok disk' ↔
      ∃ content, disk.find? (place ++ [old]) = some (.file content) ∧
        disk.Admits directory old ∧ disk.Admits (Path.trimEnd directory) new ∧
        disk.find? (place ++ [new]) ≠ some .directory ∧
        disk.move (place ++ [old]) (place ++ [new]) content = disk' := by
  have hsource {p : Place} {node : Node} :
      disk.node (Path.join directory old) = .ok (p, node) ↔
        disk.Admits directory old ∧ place ++ [old] = p ∧ disk.find? p = some node := by
    rw [node_eq_ok_iff, locate_join h hold, and_assoc]
  have htarget {p : Place} := locate_join (node_trimEnd h) hnew (p := p)
  rw [renameIn, rename, bind_eq_ok_iff]
  constructor
  · rintro ⟨⟨p, node⟩, hnode, hmove⟩
    obtain ⟨hadmits, rfl, hfind⟩ := hsource.1 hnode
    cases node with
    | directory => cases hmove
    | file content =>
      obtain ⟨q, hq, hmove⟩ := bind_eq_ok_iff.1 hmove
      obtain ⟨hadmits', rfl⟩ := htarget.1 hq
      split at hmove
      · cases hmove
      · exact ⟨content, hfind, hadmits, hadmits', ‹_›, Except.ok.inj hmove⟩
  · rintro ⟨content, hfind, hadmits, hadmits', hfree, rfl⟩
    refine ⟨(_, .file content), hsource.2 ⟨hadmits, rfl, hfind⟩, ?_⟩
    refine bind_eq_ok_iff.2 ⟨_, htarget.2 ⟨hadmits', rfl⟩, ?_⟩
    split
    · exact absurd ‹_› hfree
    · rfl

/-- Another disk, in which the files of a directory have changed their names, and nothing else. -/
structure Moved (place : Place) (f : String → String) (disk disk' : Disk) : Prop where
  limits : disk'.limits = disk.limits
  workingDirectory : disk'.workingDirectory = disk.workingDirectory
  elsewhere : ∀ p, (∀ name, p ≠ place ++ [name]) → disk'.find? p = disk.find? p
  directory : ∀ name, disk'.find? (place ++ [name]) = some .directory ↔
    disk.find? (place ++ [name]) = some .directory
  file : ∀ name content, disk'.find? (place ++ [name]) = some (.file content) ↔
    ∃ old, f old = name ∧ disk.find? (place ++ [old]) = some (.file content)
  injective : ∀ a b, disk.HasFile place a → disk.HasFile place b → f a = f b → a = b

namespace Moved

theorem refl (place : Place) (disk : Disk) : Moved place id disk disk where
  limits := rfl
  workingDirectory := rfl
  elsewhere _ _ := rfl
  directory _ := Iff.rfl
  file _ _ := ⟨fun h => ⟨_, rfl, h⟩, fun ⟨_, hname, h⟩ => hname ▸ h⟩
  injective _ _ _ _ h := h

theorem hasFile_iff (h : Moved place f disk disk') :
    disk'.HasFile place name ↔ ∃ old, f old = name ∧ disk.HasFile place old := by
  constructor
  · rintro ⟨content, hfind⟩
    obtain ⟨old, hname, hfind⟩ := (h.file name content).1 hfind
    exact ⟨old, hname, content, hfind⟩
  · rintro ⟨old, hname, content, hfind⟩
    exact ⟨content, (h.file name content).2 ⟨old, hname, hfind⟩⟩

theorem hasFile (h : Moved place f disk disk') (hfile : disk.HasFile place name) :
    disk'.HasFile place (f name) :=
  h.hasFile_iff.2 ⟨name, rfl, hfile⟩

theorem trans (h : Moved place f disk disk') (h' : Moved place g disk' disk'') :
    Moved place (g ∘ f) disk disk'' where
  limits := h'.limits.trans h.limits
  workingDirectory := h'.workingDirectory.trans h.workingDirectory
  elsewhere p hp := (h'.elsewhere p hp).trans (h.elsewhere p hp)
  directory name := (h'.directory name).trans (h.directory name)
  file name content := by
    rw [h'.file]
    constructor
    · rintro ⟨between, hg, hfind⟩
      obtain ⟨old, rfl, hold⟩ := (h.file between content).1 hfind
      exact ⟨old, hg, hold⟩
    · rintro ⟨old, hgf, hfind⟩
      exact ⟨f old, hgf, (h.file _ _).2 ⟨old, rfl, hfind⟩⟩
  injective a b ha hb hgf :=
    h.injective a b ha hb (h'.injective _ _ (h.hasFile ha) (h.hasFile hb) hgf)

/-- Only where the files go counts. -/
theorem congr (h : Moved place f disk disk')
    (hfg : ∀ name, disk.HasFile place name → f name = g name) : Moved place g disk disk' where
  limits := h.limits
  workingDirectory := h.workingDirectory
  elsewhere := h.elsewhere
  directory := h.directory
  file name content := by
    rw [h.file]
    constructor
    · rintro ⟨old, hname, hfind⟩
      exact ⟨old, hfg old ⟨_, hfind⟩ ▸ hname, hfind⟩
    · rintro ⟨old, hname, hfind⟩
      exact ⟨old, hfg old ⟨_, hfind⟩ ▸ hname, hfind⟩
  injective a b ha hb hg := h.injective a b ha hb (by rw [hfg a ha, hfg b hb, hg])

theorem pathTooLong (h : Moved place f disk disk') (path : String) :
    disk'.pathTooLong path = disk.pathTooLong path := by
  rw [Disk.pathTooLong, h.limits, Disk.pathTooLong]

theorem find?_directory (h : Moved place f disk disk') (hp : disk.find? p = some .directory) :
    disk'.find? p = some .directory := by
  by_cases hplace : ∃ name, p = place ++ [name]
  · obtain ⟨name, rfl⟩ := hplace
    exact (h.directory name).2 hp
  · rw [h.elsewhere p (not_exists.1 hplace), hp]

theorem find?_eq (h : Moved place id disk disk') (p : Place) : disk'.find? p = disk.find? p := by
  by_cases hplace : ∃ name, p = place ++ [name]
  · obtain ⟨name, rfl⟩ := hplace
    ext node
    cases node with
    | file content => simp [h.file]
    | directory => exact h.directory name
  · exact h.elsewhere p (not_exists.1 hplace)

theorem node (h : Moved place f disk disk') (hnode : disk.node directory = .ok (p, .directory)) :
    disk'.node directory = .ok (p, .directory) :=
  node_mono h.limits h.workingDirectory (fun _ => h.find?_directory) hnode

end Moved

theorem find?_move_in (name : String) :
    (disk.move (place ++ [old]) (place ++ [new]) content).find? (place ++ [name]) =
      if name = new then some (.file content) else if name = old then none
      else disk.find? (place ++ [name]) := by
  rw [find?_move (by simp) (by simp)]
  simp

/-- A file goes to a name that no other file has. -/
theorem moved_move (hfind : disk.find? (place ++ [old]) = some (.file content))
    (hdirectory : disk.find? (place ++ [new]) ≠ some .directory)
    (hfree : disk.HasFile place new → new = old) :
    Moved place (fun name => if name = old then new else name) disk
      (disk.move (place ++ [old]) (place ++ [new]) content) where
  limits := rfl
  workingDirectory := rfl
  elsewhere p hp := by
    rw [find?_move (by simp) (by simp), if_neg (hp new), if_neg (hp old)]
  directory name := by
    rw [find?_move_in]
    by_cases hnew : name = new
    · subst hnew
      simpa using hdirectory
    · by_cases hold : name = old
      · subst hold
        simp [hnew, hfind]
      · rw [if_neg hnew, if_neg hold]
  file name content' := by
    rw [find?_move_in]
    constructor
    · intro h
      split at h
      · cases h
        exact ⟨old, by simp_all, hfind⟩
      · split at h
        · cases h
        · exact ⟨name, if_neg ‹_›, h⟩
    · rintro ⟨name', rfl, h⟩
      by_cases hold : name' = old
      · subst hold
        rw [if_pos rfl, if_pos rfl, ← hfind, h]
      · have hnew : name' ≠ new := fun hnew => hold ((hnew ▸ hfree) ⟨content', h⟩)
        rw [if_neg hold, if_neg hnew, if_neg hold, h]
  injective a b ha hb hab := by
    split at hab <;> split at hab <;> subst_vars
    · rfl
    · exact (hfree hb).symm
    · exact hfree ha
    · rfl

end Disk

end ClockCalc
