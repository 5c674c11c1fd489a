import ClassicAsp.FileTree
import ClassicAsp.Proofs.FilePath
import Mathlib.Data.List.Nodup
import Mathlib.Data.List.Pairwise

/-! The search for files. A folder is searched entry by entry in the order of the names, and a
folder among them where its own name puts it. The files found are those below the folder with the
extension, each once, in the order of the components of their paths. -/
namespace ClassicAsp

namespace FileTree

open FilePath (IsName EndsIn Precedes join components hasExtension)

/-- The entries of every folder have names, each its own. -/
inductive WellNamed : FileTree → Prop where
  | file (bytes : List UInt8) : WellNamed (file bytes)
  | folder {entries : List (Text × FileTree)} (distinct : (entries.map Prod.fst).Nodup)
      (named : ∀ e ∈ entries, IsName e.1) (below : ∀ e ∈ entries, WellNamed e.2) :
      WellNamed (folder entries)

/-- The names that lead from a tree to a tree below it. -/
inductive LiesAt : FileTree → List Text → FileTree → Prop where
  | here (tree : FileTree) : LiesAt tree [] tree
  | under {entries : List (Text × FileTree)} {name : Text} {child tree : FileTree}
      {names : List Text} (entry : (name, child) ∈ entries) (inside : LiesAt child names tree) :
      LiesAt (folder entries) (name :: names) tree

theorem LiesAt.isName {tree sub : FileTree} {names : List Text} (htree : tree.WellNamed)
    (h : LiesAt tree names sub) : ∀ n ∈ names, IsName n := by
  induction h with
  | here => simp
  | under entry _ ih =>
    cases htree with
    | folder _ named below =>
      exact List.forall_mem_cons.2 ⟨named _ entry, ih (below _ entry)⟩

theorem WellNamed.nil : (FileTree.folder []).WellNamed := .folder .nil (by simp) (by simp)

theorem mem_of_lookup {entries : List (Text × FileTree)} {name : Text} {child : FileTree}
    (h : entries.lookup name = some child) : (name, child) ∈ entries := by
  obtain ⟨l, r, rfl, -⟩ := List.lookup_eq_some_iff.1 h
  exact List.mem_append_right _ List.mem_cons_self

theorem WellNamed.lookup_getD {entries : List (Text × FileTree)}
    (h : (FileTree.folder entries).WellNamed) (name : Text) :
    ((entries.lookup name).getD (.folder [])).WellNamed := by
  cases h with
  | folder distinct named below =>
    cases hl : entries.lookup name with
    | none => exact .nil
    | some child => exact below _ (mem_of_lookup hl)

theorem WellNamed.put {entries : List (Text × FileTree)} {name : Text} {child : FileTree}
    (h : (FileTree.folder entries).WellNamed) (hname : IsName name) (hchild : child.WellNamed) :
    (FileTree.folder (entries.filter (·.1 ≠ name) ++ [(name, child)])).WellNamed := by
  cases h with
  | folder distinct named below =>
    have hmem : ∀ e ∈ entries.filter (·.1 ≠ name) ++ [(name, child)],
        e ∈ entries ∧ e.1 ≠ name ∨ e = (name, child) := by
      simp [List.mem_filter]
    refine .folder ?_ ?_ ?_
    · rw [List.map_append, List.nodup_append]
      refine ⟨distinct.sublist (List.filter_sublist.map _), List.nodup_singleton _, ?_⟩
      simp
    · intro e he
      rcases hmem e he with ⟨he, -⟩ | rfl
      · exact named e he
      · exact hname
    · intro e he
      rcases hmem e he with ⟨he, -⟩ | rfl
      · exact below e he
      · exact hchild

/-- Trees stay well named as files are put into them. -/
theorem WellNamed.alter {tree : FileTree} (htree : tree.WellNamed) {change : FileTree → FileTree}
    (hchange : ∀ t : FileTree, t.WellNamed → (change t).WellNamed) (cs : List Text)
    (hcs : ∀ c ∈ cs, IsName c) : (tree.alter change cs).WellNamed := by
  induction cs generalizing tree with
  | nil => exact hchange tree htree
  | cons c cs ih =>
    obtain ⟨hc, hcs⟩ := List.forall_mem_cons.1 hcs
    cases tree with
    | file => exact WellNamed.nil.put hc (ih .nil hcs)
    | folder entries => exact htree.put hc (ih (htree.lookup_getD c) hcs)

section Search

variable (ext : Text)

theorem filesOfEntries_eq_map (path : Text) (entries : List (Text × FileTree)) :
    filesOfEntries ext path entries =
      entries.map fun e => (e.1, filesBelow ext (join path e.1) e.2) := by
  induction entries with
  | nil => rfl
  | cons e entries ih => rw [filesOfEntries, ih, List.map_cons]

theorem filesBelow_of_sorted {entries : List (Text × FileTree)}
    (h : entries.Pairwise fun a b => nameLE a b = true) (path : Text) :
    filesBelow ext path (folder entries) =
      entries.flatMap fun e => filesBelow ext (join path e.1) e.2 := by
  have hsorted : (entries.map fun e => (e.1, filesBelow ext (join path e.1) e.2)).Pairwise
      fun a b => nameLE a b = true := List.pairwise_map.2 h
  rw [filesBelow, filesOfEntries_eq_map, List.mergeSort_of_pairwise hsorted, List.flatMap_map]

theorem mem_filesBelow_folder {path : Text} {entries : List (Text × FileTree)} {f : FoundFile} :
    f ∈ filesBelow ext path (folder entries) ↔
      ∃ e ∈ entries, f ∈ filesBelow ext (join path e.1) e.2 := by
  rw [filesBelow, filesOfEntries_eq_map, List.mem_flatMap]
  simp only [List.mem_mergeSort, List.mem_map, exists_exists_and_eq_and]

theorem WellNamed.mem_filesBelow {tree : FileTree} (htree : tree.WellNamed) (path : Text)
    (f : FoundFile) :
    f ∈ filesBelow ext path tree ↔ ∃ names bytes, LiesAt tree names (.file bytes) ∧
      hasExtension (names.foldl join path) ext = true ∧
      f = ⟨names.foldl join path, .ok bytes⟩ := by
  induction htree generalizing path with
  | file bytes =>
    rw [filesBelow]
    constructor
    · intro h
      split at h
      · next hext => exact ⟨[], bytes, .here _, hext, List.mem_singleton.1 h⟩
      · cases h
    · rintro ⟨names, bytes, hlies, hext, rfl⟩
      cases hlies
      rw [List.foldl_nil] at hext ⊢
      rw [if_pos hext]
      exact List.mem_singleton_self _
  | folder _ _ _ ih =>
    rw [mem_filesBelow_folder]
    constructor
    · rintro ⟨e, he, h⟩
      obtain ⟨names, bytes, hlies, hext, rfl⟩ := (ih e he _).1 h
      exact ⟨e.1 :: names, bytes, .under he hlies, hext, rfl⟩
    · rintro ⟨_, bytes, hlies, hext, rfl⟩
      cases hlies with
      | under entry inside =>
        exact ⟨_, entry, (ih _ entry _).2 ⟨_, bytes, inside, hext, rfl⟩⟩

/-- What lies below a folder has a name, and its extension decides whether it is found. -/
theorem mem_filesBelow_iff_endsIn {entries : List (Text × FileTree)}
    (h : (folder entries).WellNamed) (path : Text) (f : FoundFile) :
    f ∈ filesBelow ext path (folder entries) ↔ ∃ folders name bytes,
      LiesAt (folder entries) (folders ++ [name]) (file bytes) ∧ EndsIn name ext ∧
      f = ⟨(folders ++ [name]).foldl join path, .ok bytes⟩ := by
  have hextension (folders : List Text) {name : Text} (hname : IsName name) :
      hasExtension ((folders ++ [name]).foldl join path) ext = true ↔ EndsIn name ext := by
    rw [List.foldl_append]
    exact FilePath.hasExtension_join _ ext hname
  rw [h.mem_filesBelow]
  constructor
  · rintro ⟨names, bytes, hlies, hext, rfl⟩
    rcases List.eq_nil_or_concat' names with rfl | ⟨folders, name, rfl⟩
    · cases hlies
    · have hname := hlies.isName h name (List.mem_append_right _ List.mem_cons_self)
      exact ⟨folders, name, bytes, hlies, (hextension folders hname).1 hext, rfl⟩
  · rintro ⟨folders, name, bytes, hlies, hext, rfl⟩
    have hname := hlies.isName h name (List.mem_append_right _ List.mem_cons_self)
    exact ⟨_, bytes, hlies, (hextension folders hname).2 hext, rfl⟩

end Search

section Order

variable (ext : Text)

theorem nameLE_iff {α : Type} {a b : Text × α} : nameLE a b = true ↔ ¬b.1 < a.1 := by
  simp [nameLE]

theorem pairwise_mergeSort_nameLE {α : Type} {entries : List (Text × α)}
    (h : (entries.map Prod.fst).Nodup) :
    (entries.mergeSort nameLE).Pairwise fun a b => a.1 < b.1 := by
  have hsorted : (entries.mergeSort nameLE).Pairwise fun a b => nameLE a b = true := by
    apply List.pairwise_mergeSort
    · intro a b c hab hbc
      have hab' := List.not_lt.1 (nameLE_iff.1 hab)
      have hbc' := List.not_lt.1 (nameLE_iff.1 hbc)
      exact nameLE_iff.2 (List.not_lt.2 (List.le_trans hab' hbc'))
    · intro a b
      rw [Bool.or_eq_true, nameLE_iff, nameLE_iff, List.not_lt, List.not_lt]
      exact List.le_total a.1 b.1
  have hdistinct : (entries.mergeSort nameLE).Pairwise fun a b => a.1 ≠ b.1 := by
    have hperm := (List.mergeSort_perm entries nameLE).map Prod.fst
    exact List.pairwise_map.1 (hperm.nodup_iff.2 h)
  refine (hsorted.and hdistinct).imp ?_
  rintro a b ⟨hle, hne⟩
  by_contra hlt
  exact hne (List.le_antisymm (List.not_lt.1 (nameLE_iff.1 hle)) (List.not_lt.1 hlt))

/-- Among the entries of a folder the names decide the order of what is found, and below one entry
the order is that of the entry. -/
theorem WellNamed.pairwise_filesBelow {tree : FileTree} (htree : tree.WellNamed) (path : Text) :
    (filesBelow ext path tree).Pairwise fun f g => Precedes f.path g.path := by
  induction htree generalizing path with
  | file bytes =>
    rw [filesBelow]
    split
    · exact List.pairwise_singleton _ _
    · exact .nil
  | @folder entries distinct named below ih =>
    rw [filesBelow, filesOfEntries_eq_map, List.pairwise_flatMap]
    constructor
    · intro a ha
      obtain ⟨e, he, rfl⟩ := List.mem_map.1 (List.mem_mergeSort.1 ha)
      exact ih e he _
    · have hcomponents : ∀ e ∈ entries, ∀ f ∈ filesBelow ext (join path e.1) e.2,
          ∃ names, components f.path = components path ++ e.1 :: names := by
        intro e he f hf
        obtain ⟨names, bytes, hlies, -, rfl⟩ := ((below e he).mem_filesBelow ext _ f).1 hf
        refine ⟨names, ?_⟩
        exact FilePath.components_foldl_join path
          (List.forall_mem_cons.2 ⟨named e he, hlies.isName (below e he)⟩)
      have hdistinct : ((entries.map fun e =>
          (e.1, filesBelow ext (join path e.1) e.2)).map Prod.fst).Nodup := by
        rw [List.map_map]
        exact distinct
      refine (pairwise_mergeSort_nameLE hdistinct).imp_of_mem ?_
      intro a b ha hb hlt f hf g hg
      obtain ⟨d, hd, rfl⟩ := List.mem_map.1 (List.mem_mergeSort.1 ha)
      obtain ⟨e, he, rfl⟩ := List.mem_map.1 (List.mem_mergeSort.1 hb)
      obtain ⟨_, hf⟩ := hcomponents d hd f hf
      obtain ⟨_, hg⟩ := hcomponents e he g hg
      exact FilePath.precedes_of_lt hf hg hlt

end Order

section Find

/-- Following components stops short, or goes on from the tree they lead to. -/
theorem follow_append (ancestors : List FileTree) (tree : FileTree) (cs : List Text) :
    (∃ e, ∀ ds, follow ancestors tree (cs ++ ds) = .error e) ∨
      ∃ above t, ∀ ds, follow ancestors tree (cs ++ ds) = follow above t ds := by
  fun_induction follow ancestors tree cs with
  | case1 ancestors tree => exact .inr ⟨ancestors, tree, fun _ => rfl⟩
  | case2 => exact .inl ⟨.notFolder, fun _ => rfl⟩
  | case3 ancestors c cs entries hc ih =>
    simp only [List.cons_append, follow, if_pos hc]
    exact ih
  | case4 cs entries hc ih =>
    simp only [List.cons_append, follow, if_neg hc, if_true]
    exact ih
  | case5 cs entries parent ancestors hc ih =>
    simp only [List.cons_append, follow, if_neg hc, if_true]
    exact ih
  | case6 ancestors c cs entries hc hup hl =>
    simp only [List.cons_append, follow, if_neg hc, if_neg hup, hl]
    exact .inl ⟨.notFound, fun _ => rfl⟩
  | case7 ancestors c cs entries hc hup child hl ih =>
    simp only [List.cons_append, follow, if_neg hc, if_neg hup, hl]
    exact ih

theorem WellNamed.follow {ancestors : List FileTree} {tree t : FileTree} {cs : List Text}
    (hancestors : ∀ a ∈ ancestors, a.WellNamed) (htree : tree.WellNamed)
    (h : tree.follow ancestors cs = .ok t) : t.WellNamed := by
  fun_induction FileTree.follow ancestors tree cs with
  | case1 =>
    cases h
    exact htree
  | case2 | case6 => cases h
  | case3 ancestors c cs entries hc ih => exact ih hancestors htree h
  | case4 cs entries hc ih => exact ih hancestors htree h
  | case5 cs entries parent ancestors hc ih =>
    obtain ⟨hparent, habove⟩ := List.forall_mem_cons.1 hancestors
    exact ih habove hparent h
  | case7 ancestors c cs entries hc hup child hl ih =>
    cases htree with
    | folder distinct named below =>
      exact ih (List.forall_mem_cons.2 ⟨.folder distinct named below, hancestors⟩)
        (below _ (mem_of_lookup hl)) h

theorem WellNamed.find {tree t : FileTree} {path : Text} (htree : tree.WellNamed)
    (h : tree.find path = .ok t) : t.WellNamed := by
  unfold FileTree.find at h
  split at h
  · cases h
  · exact WellNamed.follow (by simp) htree h

theorem lookup_of_mem {entries : List (Text × FileTree)} {name : Text} {child : FileTree}
    (hdistinct : (entries.map Prod.fst).Nodup) (h : (name, child) ∈ entries) :
    entries.lookup name = some child := by
  obtain ⟨l, r, rfl⟩ := List.append_of_mem h
  rw [List.map_append, List.map_cons, List.nodup_append] at hdistinct
  refine List.lookup_eq_some_iff.2 ⟨l, r, rfl, ?_⟩
  intro e he
  exact bne_iff_ne.2 (Ne.symm (hdistinct.2.2 _ (List.mem_map_of_mem he) _ List.mem_cons_self))

theorem follow_name {ancestors : List FileTree} {entries : List (Text × FileTree)} {name : Text}
    {child : FileTree} (hname : IsName name) (hl : entries.lookup name = some child) :
    follow ancestors (folder entries) [name] = .ok child := by
  simp only [follow, hname.nonempty, hname.not_here, hname.not_up, hl, or_self, if_false]

theorem eq_of_follow {ancestors : List FileTree} {t : FileTree}
    {entries : List (Text × FileTree)} {c : List Text} (hc : c = [] ∨ c = [[]])
    (h : follow ancestors t c = .ok (folder entries)) : t = folder entries := by
  rcases hc with rfl | rfl
  · exact Except.ok.inj h
  · cases t with
    | file => cases h
    | folder => simpa [follow] using h

theorem find_join {tree child : FileTree} {path name : Text} {entries : List (Text × FileTree)}
    (h : tree.find path = .ok (folder entries)) (hentries : (folder entries).WellNamed)
    (hentry : (name, child) ∈ entries) : tree.find (join path name) = .ok child := by
  cases hentries with
  | folder distinct named below =>
    have hname : IsName name := named _ hentry
    obtain ⟨p, hjoin, hpath⟩ := FilePath.exists_join path
    have hfolder : ∃ c, (c = [] ∨ c = [[]]) ∧
        follow [] tree (Text.pieces '/' p ++ c) = .ok (folder entries) := by
      unfold FileTree.find at h
      split at h
      · cases h
      · rcases hpath with rfl | rfl
        · exact ⟨[], .inl rfl, by rw [List.append_nil, h]⟩
        · rw [Text.pieces_append_separator] at h
          exact ⟨[[]], .inr rfl, h⟩
    obtain ⟨c, hc, hfolder⟩ := hfolder
    rw [hjoin, FileTree.find, if_neg (by simp), Text.pieces_append_separator,
      Text.pieces_of_not_mem hname.slashless]
    rcases follow_append [] tree (Text.pieces '/' p) with ⟨e, he⟩ | ⟨above, t, ht⟩
    · rw [he] at hfolder
      cases hfolder
    · rw [ht] at hfolder ⊢
      rw [eq_of_follow hc hfolder]
      exact follow_name hname (lookup_of_mem distinct hentry)

theorem find_foldl_join {tree top sub : FileTree} {path : Text} {names : List Text}
    (h : tree.find path = .ok top) (htop : top.WellNamed) (hlies : top.LiesAt names sub) :
    tree.find (names.foldl join path) = .ok sub := by
  induction hlies generalizing path with
  | here => exact h
  | under entry _ ih =>
    have hchild := find_join h htop entry
    cases htop with
    | folder _ _ below => exact ih hchild (below _ entry)

end Find

end FileTree

open FileTree
open FilePath (IsName EndsIn Precedes join)

section Arguments

variable (find : Text → Except FileError FileTree) (ext : Text) {path : Text}

theorem findFiles_of_error {e : FileError} (h : find path = .error e) :
    findFiles find ext [path] = [⟨path, .error e⟩] := by
  simp [findFiles, h]

theorem findFiles_of_file {bytes : List UInt8} (h : find path = .ok (.file bytes)) :
    findFiles find ext [path] = [⟨path, .ok bytes⟩] := by
  simp [findFiles, h]

theorem findFiles_of_folder {entries : List (Text × FileTree)}
    (h : find path = .ok (.folder entries)) :
    findFiles find ext [path] = filesBelow ext path (.folder entries) := by
  simp [findFiles, h]

theorem findFiles_eq_flatMap (paths : List Text) :
    findFiles find ext paths = paths.flatMap fun path => findFiles find ext [path] := by
  simp only [findFiles, List.flatMap_cons, List.flatMap_nil, List.append_nil]

end Arguments

/-- What is found in a folder: the files below it with the extension, in the order of the components
of their paths. -/
structure FoundBelow (tree : FileTree) (ext path : Text) (entries : List (Text × FileTree))
    (found : List FoundFile) : Prop where
  mem_iff : ∀ f, f ∈ found ↔ ∃ folders name bytes,
    (folder entries).LiesAt (folders ++ [name]) (.file bytes) ∧ EndsIn name ext ∧
      f = ⟨(folders ++ [name]).foldl join path, .ok bytes⟩
  ordered : found.Pairwise fun f g => Precedes f.path g.path
  nodup : (found.map FoundFile.path).Nodup
  find : ∀ f ∈ found, ∃ bytes, f.bytes = .ok bytes ∧ tree.find f.path = .ok (.file bytes)

/-- What a command finds for its arguments. Its order is not that of whole paths, as the slash
behind a folder comes after a dot. -/
structure FindsExactly (tree : FileTree) (ext : Text) : Prop where
  one_by_one : ∀ paths, findFiles tree.find ext paths =
    paths.flatMap fun path => findFiles tree.find ext [path]
  error : ∀ path e, tree.find path = .error e →
    findFiles tree.find ext [path] = [⟨path, .error e⟩]
  file : ∀ path bytes, tree.find path = .ok (.file bytes) →
    findFiles tree.find ext [path] = [⟨path, .ok bytes⟩]
  folder : ∀ path entries, tree.find path = .ok (.folder entries) →
    FoundBelow tree ext path entries (findFiles tree.find ext [path])
  dot_slash : ∀ path name inner e, IsName name → IsName inner → IsName (name ++ '.' :: e) →
    let f := join (join path name) inner
    let g := join path (name ++ '.' :: e)
    Precedes f g ∧ Utf8.encode g < Utf8.encode f

theorem foundBelow_of_wellNamed {tree : FileTree} (htree : tree.WellNamed) (ext : Text) {path : Text}
    {entries : List (Text × FileTree)} (hpath : tree.find path = .ok (.folder entries)) :
    FoundBelow tree ext path entries (findFiles tree.find ext [path]) := by
  have hentries := htree.find hpath
  have horder := hentries.pairwise_filesBelow ext path
  have hmem := mem_filesBelow_iff_endsIn ext hentries path
  rw [findFiles_of_folder _ ext hpath]
  refine ⟨hmem, horder, List.pairwise_map.2 (horder.imp fun h => h.ne), ?_⟩
  intro f hf
  obtain ⟨folders, name, bytes, hlies, -, rfl⟩ := (hmem f).1 hf
  exact ⟨bytes, rfl, find_foldl_join hpath hentries hlies⟩

/-- A command finds the files that its arguments name or that lie below them, each once and in
order. -/
theorem findFiles_exact {tree : FileTree} (htree : tree.WellNamed) (ext : Text) :
    FindsExactly tree ext where
  one_by_one := findFiles_eq_flatMap _ ext
  error _ _ := findFiles_of_error _ ext
  file _ _ := findFiles_of_file _ ext
  folder _ _ := foundBelow_of_wellNamed htree ext
  dot_slash path _ _ _ hname hinner hfile := FilePath.precedes_dot path hname hinner hfile

/-- Four files, of which one has nothing in front of its dot and another nothing behind it. -/
theorem findFiles_exact_of_four :
    let site : FileTree := .folder
      [(".asp".toList, .file [1]), (['a'], .folder [("b.asp".toList, .file [2])]),
        ("a.ASP".toList, .file [3]), ("c.".toList, .file [4])]
    let found := findFiles site.find ".asp".toList [['.']]
    site.WellNamed ∧ (∃ entries, site.find ['.'] = .ok (.folder entries)) ∧
    found = [⟨"./a/b.asp".toList, .ok [2]⟩, ⟨"./a.ASP".toList, .ok [3]⟩] ∧
    ⟨"./a/b.asp".toList, .ok [2]⟩ ∈ found ∧
    found.Pairwise (fun f g => Precedes f.path g.path) ∧
    Utf8.encode "./a.ASP".toList < Utf8.encode "./a/b.asp".toList ∧
    site.find "./a.ASP".toList = .ok (.file [3]) ∧
    findFiles site.find ".asp".toList ["c.".toList, ['d']] =
      [⟨"c.".toList, .ok [4]⟩, ⟨['d'], .error .notFound⟩] := by
  intro site found
  have hsite : site.WellNamed := by
    have hwrite (bytes : List UInt8) {t : FileTree} (ht : t.WellNamed) (cs : List Text)
        (hcs : ∀ c ∈ cs, IsName c) : (t.alter (fun _ => .file bytes) cs).WellNamed :=
      ht.alter (fun _ _ => .file bytes) cs hcs
    have hfirst := hwrite [1] .nil [".asp".toList] (by decide)
    have hsecond := hwrite [2] hfirst [['a'], "b.asp".toList] (by decide)
    have hthird := hwrite [3] hsecond ["a.ASP".toList] (by decide)
    exact hwrite [4] hthird ["c.".toList] (by decide)
  have hexact := findFiles_exact hsite ".asp".toList
  have hbelow := hexact.folder ['.'] _ rfl
  have hfound : found = [⟨"./a/b.asp".toList, .ok [2]⟩, ⟨"./a.ASP".toList, .ok [3]⟩] := by
    have hfiles := findFiles_of_folder site.find ".asp".toList
      (show site.find ['.'] = .ok (.folder _) from rfl)
    rw [filesBelow_of_sorted _ (by decide)] at hfiles
    simp only [List.flatMap_cons, List.flatMap_nil] at hfiles
    rw [filesBelow_of_sorted _ (by decide)] at hfiles
    exact hfiles
  have hbytes :=
    hexact.dot_slash ['.'] ['a'] "b.asp".toList "ASP".toList (by decide) (by decide) (by decide)
  refine ⟨hsite, ⟨_, rfl⟩, hfound, ?_, hbelow.ordered, hbytes.2, ?_, ?_⟩
  · refine (hbelow.mem_iff _).2 ⟨[['a']], "b.asp".toList, [2], ?_, ⟨['b'], "asp".toList, ?_⟩, ?_⟩
    · exact .under (.tail _ (.head _)) (.under (.head _) (.here _))
    · decide
    · rfl
  · have hthere : ⟨"./a.ASP".toList, .ok [3]⟩ ∈ found := by
      rw [hfound]
      exact .tail _ (.head _)
    obtain ⟨bytes, hread, hlead⟩ := hbelow.find _ hthere
    cases hread
    exact hlead
  · rw [hexact.one_by_one]
    simp only [List.flatMap_cons, List.flatMap_nil]
    rw [hexact.file _ [4] rfl, hexact.error _ .notFound rfl]
    rfl

end ClassicAsp
