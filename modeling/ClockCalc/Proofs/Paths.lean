import ClockCalc.Files.Disk
import ClockCalc.Proofs.Except

/-! Where the paths lead that a renumbering puts together. The name of an entry, joined to the path
of a directory, leads into that directory, whether the end of the path is trimmed or not. -/

namespace ClockCalc

/-- A name leads to an entry of that name, and not to the directory itself or to others. -/
structure Path.IsName (name : String) : Prop where
  ne_empty : name ≠ ""
  ne_here : name ≠ "."
  ne_up : name ≠ ".."
  slash : '/' ∉ name.toList

instance (name : String) : Decidable (Path.IsName name) :=
  decidable_of_iff (name ≠ "" ∧ name ≠ "." ∧ name ≠ ".." ∧ '/' ∉ name.toList)
    ⟨fun ⟨hempty, hhere, hup, hslash⟩ => ⟨hempty, hhere, hup, hslash⟩,
      fun h => ⟨h.ne_empty, h.ne_here, h.ne_up, h.slash⟩⟩

namespace Path

def names (cs : List Char) : List String := (cs.splitOn '/').map String.ofList

theorem names_append_slash (cs as : List Char) :
    names (cs ++ '/' :: as) = names cs ++ names as := by
  rw [names, List.splitOn_append_cons_self, List.map_append]
  rfl

theorem names_of_slash {name : String} (h : '/' ∉ name.toList) : names name.toList = [name] := by
  rw [names, List.splitOn_eq_singleton h, List.map_cons, List.map_nil, String.ofList_toList]

theorem IsName.head? {name : String} (h : IsName name) : name.toList.head? ≠ some '/' :=
  fun hhead => h.slash (List.mem_of_head? hhead)

theorem toList_join {directory name : String} (h : name.toList.head? ≠ some '/') :
    (join directory name).toList =
      if directory.toList.getLast? = some '/' then directory.toList ++ name.toList
      else directory.toList ++ '/' :: name.toList := by
  rw [join, if_neg h]
  split <;> simp

theorem utf8ByteSize_join {directory name : String} (h : name.toList.head? ≠ some '/') :
    (join directory name).utf8ByteSize = directory.utf8ByteSize +
      (if directory.toList.getLast? = some '/' then 0 else 1) + name.utf8ByteSize := by
  have hslash : "/".utf8ByteSize = 1 := rfl
  rw [join, if_neg h]
  split
  · rw [String.utf8ByteSize_append, Nat.add_zero]
  · rw [String.utf8ByteSize_append, String.utf8ByteSize_append, hslash]

theorem trimEndChars_eq_self {cs : List Char} (hdot : ∀ cs', cs = '.' :: '/' :: cs' → False)
    (hslash : ∀ c cs', cs = '/' :: c :: cs' → False) : trimEndChars cs = cs := by
  rw [trimEndChars] <;> assumption

theorem trimEndChars_suffix (cs : List Char) : trimEndChars cs <:+ cs := by
  induction cs using trimEndChars.induct with
  | case1 cs ih =>
    rw [trimEndChars]
    exact ih.trans (List.suffix_cons ..)
  | case2 c cs ih =>
    rw [trimEndChars]
    exact ih.trans (List.suffix_cons ..)
  | case3 cs hdot hslash =>
    have hself := trimEndChars_eq_self hdot hslash
    exact ⟨[], hself⟩

theorem trimEndChars_ne_nil {cs : List Char} (h : cs ≠ []) : trimEndChars cs ≠ [] := by
  induction cs using trimEndChars.induct with
  | case1 cs ih =>
    rw [trimEndChars]
    exact ih (List.cons_ne_nil _ _)
  | case2 c cs ih =>
    rw [trimEndChars]
    exact ih (List.cons_ne_nil _ _)
  | case3 cs hdot hslash => rwa [trimEndChars_eq_self hdot hslash]

theorem trimEnd_prefix (path : String) : (trimEnd path).toList <+: path.toList := by
  rw [trimEnd, String.toList_ofList, ← List.reverse_suffix, List.reverse_reverse]
  exact trimEndChars_suffix _

theorem utf8ByteSize_le_of_prefix {s t : String} (h : s.toList <+: t.toList) :
    s.utf8ByteSize ≤ t.utf8ByteSize := by
  obtain ⟨r, hr⟩ := h
  have ht : t = s ++ String.ofList r := by rw [← String.toList_inj]; simp [hr]
  rw [ht, String.utf8ByteSize_append]
  exact Nat.le_add_right _ _

theorem utf8ByteSize_lt_of_prefix {s t : String} (h : s.toList <+: t.toList) (hne : s ≠ t) :
    s.utf8ByteSize < t.utf8ByteSize := by
  obtain ⟨r, hr⟩ := h
  have ht : t = s ++ String.ofList r := by rw [← String.toList_inj]; simp [hr]
  have hpos : (String.ofList r).utf8ByteSize ≠ 0 := by
    intro hzero
    rw [String.utf8ByteSize_eq_zero_iff.1 hzero, String.append_empty] at ht
    exact hne ht.symm
  rw [ht, String.utf8ByteSize_append]
  omega

/-- A path built on the trimmed one is no longer. -/
theorem utf8ByteSize_join_trimEnd_le {directory name : String}
    (h : name.toList.head? ≠ some '/') :
    (join (trimEnd directory) name).utf8ByteSize ≤ (join directory name).utf8ByteSize := by
  rw [utf8ByteSize_join h, utf8ByteSize_join h]
  by_cases heq : trimEnd directory = directory
  · exact Nat.le_of_eq (by rw [heq])
  · have hbegins := trimEnd_prefix directory
    have hlt := utf8ByteSize_lt_of_prefix hbegins heq
    split <;> split <;> omega

end Path

namespace Disk

open ClockCalc.Path (IsName)

variable {disk : Disk} {directory name path : String} {place : Place}

/-- Where a path leads if it is not too long. -/
def lead (disk : Disk) (cs : List Char) : Except Files.Refusal Place :=
  disk.follow (if cs.head? = some '/' then [] else disk.workingDirectory) (Path.names cs)

theorem follow_append (place : Place) (names names' : List String) :
    disk.follow place (names ++ names') =
      disk.follow place names >>= fun p => disk.follow p names' := by
  induction names generalizing place with
  | nil => rfl
  | cons name names ih =>
    rw [List.cons_append, follow, follow]
    split
    · rfl
    · rfl
    · simp only [ih]
      split
      · rfl
      · split
        · rfl
        · split <;> rfl

theorem follow_eq_ok_iff {p : Place} :
    disk.follow place [name] = .ok p ↔ disk.find? place = some .directory ∧
      if name = "" ∨ name = "." then place = p
      else if name = ".." then place.dropLast = p
      else disk.nameTooLong name = false ∧ place ++ [name] = p := by
  rw [follow]
  cases disk.find? place with
  | none => simp
  | some node =>
    cases node with
    | file content => simp
    | directory =>
      simp only [follow, true_and]
      split
      · simp
      · split
        · simp
        · cases disk.nameTooLong name <;> simp

/-- A name that leads nowhere, as between two slashes. -/
theorem follow_nowhere {p : Place} (hname : name = "" ∨ name = ".") :
    disk.follow place [name] = .ok p ↔ disk.find? place = some .directory ∧ place = p := by
  rw [follow_eq_ok_iff, if_pos hname]

theorem follow_name {p : Place} (hname : IsName name) :
    disk.follow place [name] = .ok p ↔ disk.find? place = some .directory ∧
      disk.nameTooLong name = false ∧ place ++ [name] = p := by
  have hnowhere : ¬ (name = "" ∨ name = ".") := fun h => h.elim hname.ne_empty hname.ne_here
  rw [follow_eq_ok_iff, if_neg hnowhere, if_neg hname.ne_up]

theorem lead_append_slash {cs as : List Char} (h : disk.lead (cs ++ ['/']) = .ok place) :
    disk.lead (cs ++ '/' :: as) = disk.follow place (Path.names as) := by
  -- a slash at the end leaves an empty name, which only asks for a directory
  rw [lead, Path.names_append_slash, follow_append] at h ⊢
  obtain ⟨p, hp, hslash⟩ := bind_eq_ok_iff.1 h
  obtain ⟨-, rfl⟩ := (follow_nowhere (.inl rfl)).1 hslash
  have hhead : (cs ++ '/' :: as).head? = (cs ++ ['/']).head? := by cases cs <;> rfl
  rw [hhead, hp]
  rfl

theorem lead_slash {cs : List Char} (hcs : cs ≠ []) :
    disk.lead (cs ++ ['/']) = .ok place ↔
      disk.lead cs = .ok place ∧ disk.find? place = some .directory := by
  have hhead : (cs ++ ['/']).head? = cs.head? := by
    cases cs with
    | nil => exact absurd rfl hcs
    | cons c cs => rfl
  rw [lead, Path.names_append_slash, follow_append, hhead, bind_eq_ok_iff]
  constructor
  · rintro ⟨p, hp, hslash⟩
    obtain ⟨hdirectory, rfl⟩ := (follow_nowhere (.inl rfl)).1 hslash
    exact ⟨hp, hdirectory⟩
  · rintro ⟨hp, hdirectory⟩
    exact ⟨place, hp, (follow_nowhere (.inl rfl)).2 ⟨hdirectory, rfl⟩⟩

theorem locate_eq_ok_iff :
    disk.locate path = .ok place ↔ path ≠ "" ∧ '\x00' ∉ path.toList ∧
      disk.pathTooLong path = false ∧ disk.lead path.toList = .ok place := by
  have hempty : path.toList = [] ↔ path = "" := by simp
  simp only [locate, lead, Path.names]
  split
  · simp_all
  · split
    · simp_all
    · split <;> simp_all

theorem node_eq_ok_iff {node : Node} :
    disk.node path = .ok (place, node) ↔
      disk.locate path = .ok place ∧ disk.find? place = some node := by
  rw [Disk.node, bind_eq_ok_iff]
  constructor
  · rintro ⟨p, hp, h⟩
    split at h
    · obtain ⟨rfl, rfl⟩ := Prod.mk.inj (Except.ok.inj h)
      exact ⟨hp, ‹_›⟩
    · cases h
  · rintro ⟨hp, hnode⟩
    exact ⟨place, hp, by rw [hnode]⟩

theorem lead_trimEndChars {cs : List Char} (h : disk.lead cs.reverse = .ok place) :
    disk.lead (Path.trimEndChars cs).reverse = .ok place := by
  induction cs using Path.trimEndChars.induct with
  | case1 cs ih =>
    rw [Path.trimEndChars]
    refine ih ?_
    simp only [List.reverse_cons, List.append_assoc, List.cons_append, List.nil_append] at h ⊢
    rw [lead, Path.names_append_slash, follow_append] at h ⊢
    obtain ⟨p, hp, hdot⟩ := bind_eq_ok_iff.1 h
    have hhere := (follow_nowhere (.inr rfl)).1 hdot
    have hhead : (cs.reverse ++ ['/']).head? = (cs.reverse ++ ['/', '.']).head? := by
      cases cs.reverse <;> rfl
    rw [hhead]
    exact bind_eq_ok_iff.2 ⟨p, hp, (follow_nowhere (.inl rfl)).2 hhere⟩
  | case2 c cs ih =>
    rw [Path.trimEndChars]
    refine ih ?_
    rw [List.reverse_cons] at h
    exact ((lead_slash (by simp)).1 h).1
  | case3 cs hdot hslash => rwa [Path.trimEndChars_eq_self hdot hslash]

theorem pathTooLong_of_le {path' : String} (hle : path'.utf8ByteSize ≤ path.utf8ByteSize)
    (h : disk.pathTooLong path = false) : disk.pathTooLong path' = false := by
  simp only [pathTooLong] at h ⊢
  cases hlimits : disk.limits with
  | none => rfl
  | some limits =>
    rw [hlimits] at h
    simp only [Option.any_some, decide_eq_false_iff_not] at h ⊢
    omega

/-- A directory is the same without the slashes and points at the end of its path. -/
theorem node_trimEnd (h : disk.node directory = .ok (place, .directory)) :
    disk.node (Path.trimEnd directory) = .ok (place, .directory) := by
  obtain ⟨hlocate, hplace⟩ := node_eq_ok_iff.1 h
  obtain ⟨hempty, hnul, hshort, hlead⟩ := locate_eq_ok_iff.1 hlocate
  have hbegins := Path.trimEnd_prefix directory
  refine node_eq_ok_iff.2 ⟨locate_eq_ok_iff.2 ⟨?_, fun hmem => hnul (hbegins.subset hmem),
    pathTooLong_of_le (Path.utf8ByteSize_le_of_prefix hbegins) hshort, ?_⟩, hplace⟩
  · have hne : directory.toList.reverse ≠ [] := by simpa using hempty
    simpa [Path.trimEnd] using Path.trimEndChars_ne_nil hne
  · rw [Path.trimEnd, String.toList_ofList]
    exact lead_trimEndChars (by rwa [List.reverse_reverse])

theorem lead_join (h : disk.node directory = .ok (place, .directory)) (hname : IsName name) :
    disk.lead (Path.join directory name).toList = disk.follow place [name] := by
  obtain ⟨hlocate, hplace⟩ := node_eq_ok_iff.1 h
  obtain ⟨hempty, -, -, hlead⟩ := locate_eq_ok_iff.1 hlocate
  rw [Path.toList_join hname.head?, ← Path.names_of_slash hname.slash]
  split
  · rename_i hslash
    obtain ⟨ds, hds⟩ := List.getLast?_eq_some_iff.1 hslash
    rw [hds] at hlead ⊢
    rw [List.append_assoc]
    exact lead_append_slash hlead
  · have hne : directory.toList ≠ [] := by simpa using hempty
    exact lead_append_slash ((lead_slash hne).2 ⟨hlead, hplace⟩)

theorem nul_mem_join (hname : IsName name) :
    '\x00' ∈ (Path.join directory name).toList ↔
      '\x00' ∈ directory.toList ∨ '\x00' ∈ name.toList := by
  rw [Path.toList_join hname.head?]
  split <;> simp

/-- The name can be used behind the path of a directory. -/
structure Admits (disk : Disk) (directory name : String) : Prop where
  nul : '\x00' ∉ name.toList
  path : disk.pathTooLong (Path.join directory name) = false
  name : disk.nameTooLong name = false

/-- A name joined to the path of a directory leads to the place of that name in it, where it leads
anywhere. -/
theorem locate_join (h : disk.node directory = .ok (place, .directory)) (hname : IsName name)
    {p : Place} :
    disk.locate (Path.join directory name) = .ok p ↔
      disk.Admits directory name ∧ place ++ [name] = p := by
  obtain ⟨hlocate, hplace⟩ := node_eq_ok_iff.1 h
  obtain ⟨-, hnul, -, -⟩ := locate_eq_ok_iff.1 hlocate
  have hne : Path.join directory name ≠ "" := by
    intro hjoin
    have hchars := @Path.toList_join directory name hname.head?
    rw [hjoin] at hchars
    have := hname.ne_empty
    split at hchars <;> simp_all
  rw [locate_eq_ok_iff, lead_join h hname, follow_name hname, nul_mem_join hname]
  constructor
  · rintro ⟨-, hnuls, hpath, -, hshort, rfl⟩
    exact ⟨⟨fun hmem => hnuls (.inr hmem), hpath, hshort⟩, rfl⟩
  · rintro ⟨⟨hnul', hpath, hshort⟩, rfl⟩
    exact ⟨hne, fun hmem => hmem.elim hnul hnul', hpath, hplace, hshort, rfl⟩

/-- Neither the name nor its path is too long. -/
structure Short (disk : Disk) (directory name : String) : Prop where
  path : disk.pathTooLong (Path.join directory name) = false
  name : disk.nameTooLong name = false

theorem Short.admits (h : disk.Short directory name) (hnul : '\x00' ∉ name.toList) :
    disk.Admits directory name :=
  ⟨hnul, h.path, h.name⟩

theorem Admits.short (h : disk.Admits directory name) : disk.Short directory name :=
  ⟨h.path, h.name⟩

theorem Short.of_limits {disk' : Disk} (hlimits : disk'.limits = disk.limits)
    (h : disk.Short directory name) : disk'.Short directory name where
  path := by
    rw [pathTooLong, hlimits]
    exact h.path
  name := by
    rw [nameTooLong, hlimits]
    exact h.name

theorem Admits.of_limits {disk' : Disk} (hlimits : disk'.limits = disk.limits)
    (h : disk.Admits directory name) : disk'.Admits directory name :=
  (h.short.of_limits hlimits).admits h.nul

theorem Short.trimEnd (h : disk.Short directory name) (hname : name.toList.head? ≠ some '/') :
    disk.Short (Path.trimEnd directory) name :=
  ⟨pathTooLong_of_le (Path.utf8ByteSize_join_trimEnd_le hname) h.path, h.name⟩

/-- A name with no more bytes than one that is not too long. -/
theorem Short.of_le {name' : String} (h : disk.Short directory name)
    (hle : name'.utf8ByteSize ≤ name.utf8ByteSize) (hhead : name.toList.head? ≠ some '/')
    (hhead' : name'.toList.head? ≠ some '/') : disk.Short directory name' where
  path := by
    refine pathTooLong_of_le ?_ h.path
    rw [Path.utf8ByteSize_join hhead, Path.utf8ByteSize_join hhead']
    exact Nat.add_le_add_left hle _
  name := by
    have hname := h.name
    simp only [nameTooLong] at hname ⊢
    cases hlimits : disk.limits with
    | none => rfl
    | some limits =>
      rw [hlimits] at hname
      simp only [Option.any_some, decide_eq_false_iff_not] at hname ⊢
      omega

theorem pathTooLong_of_unlimited (h : disk.limits = none) (path : String) :
    disk.pathTooLong path = false := by
  rw [pathTooLong, h]
  rfl

theorem short_of_unlimited (h : disk.limits = none) : disk.Short directory name where
  path := pathTooLong_of_unlimited h _
  name := by
    rw [nameTooLong, h]
    rfl

/-- What leads to a place still does if directories stay. -/
theorem follow_mono {disk' : Disk} (hlimits : disk'.limits = disk.limits)
    (hdirectory : ∀ p, disk.find? p = some .directory → disk'.find? p = some .directory)
    {names : List String} {p : Place} (h : disk.follow place names = .ok p) :
    disk'.follow place names = .ok p := by
  induction names generalizing place with
  | nil => exact h
  | cons name names ih =>
    have hsplit (d : Disk) : d.follow place (name :: names) =
        d.follow place [name] >>= fun q => d.follow q names := follow_append place [name] names
    rw [hsplit] at h ⊢
    obtain ⟨q, hq, hp⟩ := bind_eq_ok_iff.1 h
    refine bind_eq_ok_iff.2 ⟨q, ?_, ih hp⟩
    rw [follow_eq_ok_iff, nameTooLong, hlimits]
    rw [follow_eq_ok_iff, nameTooLong] at hq
    exact ⟨hdirectory _ hq.1, hq.2⟩

theorem node_mono {disk' : Disk} (hlimits : disk'.limits = disk.limits)
    (hworking : disk'.workingDirectory = disk.workingDirectory)
    (hdirectory : ∀ p, disk.find? p = some .directory → disk'.find? p = some .directory)
    (h : disk.node path = .ok (place, .directory)) :
    disk'.node path = .ok (place, .directory) := by
  obtain ⟨hlocate, hplace⟩ := node_eq_ok_iff.1 h
  obtain ⟨hempty, hnul, hshort, hlead⟩ := locate_eq_ok_iff.1 hlocate
  refine node_eq_ok_iff.2 ⟨locate_eq_ok_iff.2 ⟨hempty, hnul, ?_, ?_⟩, hdirectory _ hplace⟩
  · rwa [pathTooLong, hlimits]
  · rw [lead, hworking]
    exact follow_mono hlimits hdirectory hlead

end Disk

end ClockCalc
