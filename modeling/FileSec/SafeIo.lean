import FileSec.Lib.FileTree
import FileSec.Path

/-!
# Writing to the user's file system

`create_dirs_no_symlink` and `SafeFileWriter` (`safe_io.rs`), on a tree with symbolic links that lead anywhere and with
calls that may fail, each by itself.  Paths are taken from a directory `root`, as lists of names: a file is written in
the directory `up` under a `name`.
-/

open FileTree

namespace FileSec

/-- What the code does not decide: where links lead, which calls fail, and the random bytes.  The calls are numbered from
the first that is made to write; the lookups before it are told apart by their paths, none of which is looked at twice. -/
structure Surroundings where
  follow : PlaceTree Str Bytes → List Str → Option (List Str)
  unseen : Str → Option Error
  fault : Nat → Option Error
  random : Nat → Result Bytes

/-- The file system, with the number of calls made so far and the trees that it has been since. -/
structure Volume where
  tree : PlaceTree Str Bytes
  calls : Nat
  states : List (PlaceTree Str Bytes)

/-! ### Calls -/

/-- A file is there already. -/
def fileExists : Error := .io "File exists".toList

variable (env : Surroundings) (root : List Str)

/-- `symlink_metadata`: what stands at the end of a path, if it can be looked at. -/
def Volume.symlinkMetadata (v : Volume) (up : List Str) (name : Str) : Result (Option (Node Bytes)) × Volume :=
  match env.fault v.calls with
  | some e => (.error e, { v with calls := v.calls + 1 })
  | none => (.ok (v.tree.lookup env.follow root up name), { v with calls := v.calls + 1 })

/-- A call that changes the tree, or fails, by itself or because of what is there. -/
def Volume.call (v : Volume) (change : Result (PlaceTree Str Bytes)) : Result Unit × Volume :=
  match env.fault v.calls with
  | some e => (.error e, { v with calls := v.calls + 1 })
  | none =>
    match change with
    | .error e => (.error e, { v with calls := v.calls + 1 })
    | .ok t => (.ok (), ⟨t, v.calls + 1, v.states ++ [t]⟩)

/-- A directory or an empty file is made where nothing is. -/
def makeNew (t : PlaceTree Str Bytes) (up : List Str) (name : Str) (n : Node Bytes) : Result (PlaceTree Str Bytes) :=
  match t.resolve env.follow root up with
  | none => .error (.io "No such file or directory".toList)
  | some p =>
    if t.node p ≠ some .dir then .error (.io "Not a directory".toList)
    else if t.node (p ++ [name]) ≠ none then .error fileExists
    else .ok (t.set p name (some n))

/-- Bytes are appended to a file. -/
def appendBytes (t : PlaceTree Str Bytes) (up : List Str) (name : Str) (bytes : Bytes) : Result (PlaceTree Str Bytes) :=
  match t.resolve env.follow root up with
  | none => .error (.io "No such file or directory".toList)
  | some p =>
    match t.node (p ++ [name]) with
    | some (.file content) => .ok (t.set p name (some (.file (content ++ bytes))))
    | _ => .error (.io "No such file or directory".toList)

/-- `rename` of a file: what was under the new name is replaced, if it is not a directory. -/
def renameFile (t : PlaceTree Str Bytes) (up : List Str) (name newName : Str) : Result (PlaceTree Str Bytes) :=
  match t.resolve env.follow root up with
  | none => .error (.io "No such file or directory".toList)
  | some p =>
    match t.node (p ++ [name]) with
    | some (.file content) =>
      if name = newName then .ok t
      else if t.node (p ++ [newName]) = some .dir then .error (.io "Is a directory".toList)
      else .ok ((t.set p newName (some (.file content))).set p name none)
    | _ => .error (.io "No such file or directory".toList)

/-- `remove_file` -/
def removeFile (t : PlaceTree Str Bytes) (up : List Str) (name : Str) : Result (PlaceTree Str Bytes) :=
  match t.resolve env.follow root up with
  | none => .error (.io "No such file or directory".toList)
  | some p =>
    match t.node (p ++ [name]) with
    | none => .error (.io "No such file or directory".toList)
    | some .dir => .error (.io "Is a directory".toList)
    | some _ => .ok (t.set p name none)

/-! ### Directories -/

/-- The loop of `create_dirs_no_symlink`, below `up`. -/
def createDirsNoSymlink : List Str → List Str → Volume → Result Unit × Volume
  | _, [], v => (.ok (), v)
  | up, c :: cs, v =>
    match v.symlinkMetadata env root up c with
    | (.ok (some .link), v) => (.error (.unsafePath "refusing to extract through a symlinked directory".toList), v)
    | (.ok (some .dir), v) => createDirsNoSymlink (up ++ [c]) cs v
    | (.ok (some (.file _)), v) => (.error (.unsafePath "extraction path collides with a non-directory".toList), v)
    | (.error e, v) => (.error e, v)
    | (.ok none, v) =>
      match v.call env (makeNew env root v.tree up c .dir) with
      | (.error e, v) => (.error e, v)
      | (.ok (), v) => createDirsNoSymlink (up ++ [c]) cs v

/-! ### Files -/

/-- `reject_symlink` -/
def rejectSymlink (v : Volume) (up : List Str) (name : Str) : Result Unit × Volume :=
  match v.symlinkMetadata env root up name with
  | (.ok (some .link), v) => (.error (.unsafePath "refusing to write through an existing symlink".toList), v)
  | (.ok _, v) => (.ok (), v)
  | (.error e, v) => (.error e, v)

/-- The name of a temporary file. -/
def tempName (suffix : Bytes) : Str := ".filesec-".toList ++ hex suffix ++ ".fstmp".toList

/-- The loop of `create_private_temp`; the first argument is how many attempts are left. -/
def createPrivateTemp (up : List Str) : Nat → Volume → Result Str × Volume
  | 0, v => (.error fileExists, v)
  | attempts + 1, v =>
    match env.random v.calls with
    | .error e => (.error e, v)
    | .ok suffix =>
      match v.call env (makeNew env root v.tree up (tempName suffix) (.file [])) with
      | (.ok (), v) => (.ok (tempName suffix), v)
      | (.error e, v) => if e = fileExists then createPrivateTemp up attempts v else (.error e, v)

/-- `SafeFileWriter::create`: the name of the temporary file. -/
def SafeFileWriter.create (up : List Str) (name : Str) (v : Volume) : Result Str × Volume :=
  match rejectSymlink env root v up name with
  | (.error e, v) => (.error e, v)
  | (.ok (), v) => createPrivateTemp env root up 8 v

/-- Writing piece by piece. -/
def SafeFileWriter.writeAll (up : List Str) (tmp : Str) : List Bytes → Volume → Result Unit × Volume
  | [], v => (.ok (), v)
  | piece :: pieces, v =>
    match v.call env (appendBytes env root v.tree up tmp piece) with
    | (.error e, v) => (.error e, v)
    | (.ok (), v) => writeAll up tmp pieces v

/-- `SafeFileWriter::commit`: the file is synced and renamed. -/
def SafeFileWriter.commit (up : List Str) (tmp name : Str) (v : Volume) : Result Unit × Volume :=
  match v.call env (.ok v.tree) with
  | (.error e, v) => (.error e, v)
  | (.ok (), v) =>
    match rejectSymlink env root v up name with
    | (.error e, v) => (.error e, v)
    | (.ok (), v) => v.call env (renameFile env root v.tree up tmp name)

/-- The writer is dropped: if it has not been committed, the temporary file is removed, or stays if that fails. -/
def SafeFileWriter.drop (up : List Str) (tmp : Str) : Result Unit × Volume → Result Unit × Volume
  | (.error e, v) => (.error e, (v.call env (removeFile env root v.tree up tmp)).2)
  | (.ok (), v) => (.ok (), v)

/-- What fills a file: the pieces that are written to it, and how that ends. -/
structure Filling where
  pieces : List Bytes
  result : Result Unit

/-- The writer is filled and committed. -/
def SafeFileWriter.run (up : List Str) (tmp name : Str) (fill : Filling) (v : Volume) : Result Unit × Volume :=
  match writeAll env root up tmp fill.pieces v with
  | (.error e, v) => (.error e, v)
  | (.ok (), v) =>
    match fill.result with
    | .error e => (.error e, v)
    | .ok () => commit env root up tmp name v

/-- A file is written through a `SafeFileWriter`. -/
def writeFile (up : List Str) (name : Str) (fill : Filling) (v : Volume) : Result Unit × Volume :=
  match SafeFileWriter.create env root up name v with
  | (.error e, v) => (.error e, v)
  | (.ok tmp, v) => SafeFileWriter.drop env root up tmp (SafeFileWriter.run env root up tmp name fill v)

/-! ### What calls do -/

/-- From `v` to `v'` the file system has only been trees with the property. -/
def Volume.Through (Q : PlaceTree Str Bytes → Prop) (v v' : Volume) : Prop :=
  ∃ more, v'.states = v.states ++ more ∧ ∀ t ∈ more, Q t

variable {env root} {Q : PlaceTree Str Bytes → Prop} {v v' v'' : Volume} {t s : PlaceTree Str Bytes} {up : List Str}
  {name tmp : Str} {content : Bytes}

theorem Volume.Through.of_states_eq (h : v'.states = v.states) : v.Through Q v' := ⟨[], by simpa using h, by simp⟩

theorem Volume.Through.of_concat (h : v'.states = v.states ++ [t]) (ht : Q t) : v.Through Q v' :=
  ⟨[t], h, by simpa using ht⟩

theorem Volume.Through.trans (h : v.Through Q v') (h' : v'.Through Q v'') : v.Through Q v'' := by
  obtain ⟨more, heq, hall⟩ := h
  obtain ⟨more', heq', hall'⟩ := h'
  refine ⟨more ++ more', by rw [heq', heq, List.append_assoc], fun t ht => ?_⟩
  rcases List.mem_append.1 ht with ht | ht
  · exact hall t ht
  · exact hall' t ht

theorem Volume.Through.mono {Q' : PlaceTree Str Bytes → Prop} (h : v.Through Q v') (himp : ∀ t, Q t → Q' t) :
    v.Through Q' v' := by
  obtain ⟨more, heq, hall⟩ := h
  exact ⟨more, heq, fun t ht => himp t (hall t ht)⟩

/-- A call changes the tree as it should, or fails and changes nothing. -/
theorem call_cases (env : Surroundings) (v : Volume) (change : Result (PlaceTree Str Bytes)) :
    (∃ t v', change = .ok t ∧ v.call env change = (.ok (), v') ∧ v'.tree = t ∧ v'.states = v.states ++ [t]) ∨
    (∃ e v', v.call env change = (.error e, v') ∧ v'.tree = v.tree ∧ v'.states = v.states) := by
  unfold Volume.call
  cases env.fault v.calls with
  | some e => exact Or.inr ⟨e, _, rfl, rfl, rfl⟩
  | none =>
    cases change with
    | error e => exact Or.inr ⟨e, _, rfl, rfl, rfl⟩
    | ok t => exact Or.inl ⟨t, _, rfl, rfl, rfl, rfl⟩

/-- A lookup says what stands at the end of a real path, or fails; it changes nothing. -/
private theorem symlinkMetadata_cases (env : Surroundings) (hreal : v.tree.Real root up) (name : Str) :
    ∃ v', v'.tree = v.tree ∧ v'.states = v.states ∧
      ((∃ e, v.symlinkMetadata env root up name = (.error e, v')) ∨
        v.symlinkMetadata env root up name = (.ok (v.tree.node (root ++ up ++ [name])), v')) := by
  unfold Volume.symlinkMetadata
  rw [hreal.lookup]
  cases env.fault v.calls with
  | some e => exact ⟨{ v with calls := v.calls + 1 }, rfl, rfl, Or.inl ⟨e, rfl⟩⟩
  | none => exact ⟨{ v with calls := v.calls + 1 }, rfl, rfl, Or.inr rfl⟩

/-- Where no link is refused, there is none. -/
private theorem rejectSymlink_cases (env : Surroundings) (hreal : v.tree.Real root up) (name : Str) :
    ∃ v', v'.tree = v.tree ∧ v'.states = v.states ∧ ((∃ e, rejectSymlink env root v up name = (.error e, v')) ∨
      rejectSymlink env root v up name = (.ok (), v') ∧ v.tree.node (root ++ up ++ [name]) ≠ some .link) := by
  unfold rejectSymlink
  obtain ⟨v', htree, hstates, ⟨e, hlook⟩ | hlook⟩ := symlinkMetadata_cases env hreal name
  · rw [hlook]
    exact ⟨v', htree, hstates, Or.inl ⟨e, rfl⟩⟩
  · rw [hlook]
    refine ⟨v', htree, hstates, ?_⟩
    rcases v.tree.node (root ++ up ++ [name]) with _ | content | _ | _
    · exact Or.inr ⟨rfl, nofun⟩
    · exact Or.inr ⟨rfl, nofun⟩
    · exact Or.inr ⟨rfl, nofun⟩
    · exact Or.inl ⟨_, rfl⟩

/-- What is made is made where the path says. -/
theorem makeNew_eq_ok (hreal : t.Real root up) {n : Node Bytes} (h : makeNew env root t up name n = .ok s) :
    t.node (root ++ up) = some .dir ∧ t.node (root ++ up ++ [name]) = none ∧
      s.node = Function.update t.node (root ++ up ++ [name]) (some n) := by
  unfold makeNew at h
  rw [hreal.resolve] at h
  dsimp only at h
  by_cases hdir : t.node (root ++ up) = some .dir
  · rw [if_neg (not_not.2 hdir)] at h
    by_cases hfree : t.node (root ++ up ++ [name]) = none
    · rw [if_neg (not_not.2 hfree), Except.ok.injEq] at h
      refine ⟨hdir, hfree, ?_⟩
      have hleaf : t.node (root ++ up ++ [name]) ≠ some .dir := by
        rw [hfree]
        exact fun heq => by cases heq
      rw [← h, PlaceTree.set_node hdir hleaf]
    · rw [if_pos hfree] at h
      cases h
  · rw [if_pos hdir] at h
    cases h

/-! ### Directories on the way -/

/-- Nothing is lost or changed, and what has come are directories on a path. -/
structure Grown (t : PlaceTree Str Bytes) (root path : List Str) (s : PlaceTree Str Bytes) : Prop where
  kept : ∀ p, t.node p ≠ none → s.node p = t.node p
  fresh : ∀ p, t.node p = none → s.node p ≠ none → s.node p = some .dir ∧ ∃ q, q ≠ [] ∧ q <+: path ∧ p = root ++ q

theorem Grown.refl (t : PlaceTree Str Bytes) (root path : List Str) : Grown t root path t :=
  ⟨fun _ _ => rfl, fun _ h h' => absurd h h'⟩

theorem Grown.trans {path : List Str} {s' : PlaceTree Str Bytes} (h : Grown t root path s) (h' : Grown s root path s') :
    Grown t root path s' := by
  constructor
  · intro p hp
    have hs := h.kept p hp
    rw [h'.kept p (by rwa [hs]), hs]
  · intro p hp hs'
    by_cases hs : s.node p = none
    · exact h'.fresh p hs hs'
    · rw [h'.kept p hs]
      exact h.fresh p hp hs

/-- A new directory on the path. -/
private theorem Grown.of_update {path q : List Str} (hq : q ≠ []) (hpre : q <+: path)
    (hfree : t.node (root ++ q) = none) (hnode : s.node = Function.update t.node (root ++ q) (some .dir)) :
    Grown t root path s := by
  constructor
  · intro p hp
    have hne : p ≠ root ++ q := by
      rintro rfl
      exact hp hfree
    rw [hnode, Function.update_of_ne hne]
  · intro p hp hs
    by_cases hplace : p = root ++ q
    · subst hplace
      exact ⟨by rw [hnode, Function.update_self], q, hq, hpre, rfl⟩
    · rw [hnode, Function.update_of_ne hplace] at hs
      exact absurd hp hs

/-- Directories are only made on the path and nothing else changes; after success the path is real. -/
theorem createDirs_spec (env : Surroundings) (cs : List Str) (hreal : v.tree.Real root up) :
    ∃ r v', createDirsNoSymlink env root up cs v = (r, v') ∧ v.Through (Grown v.tree root (up ++ cs)) v' ∧
      Grown v.tree root (up ++ cs) v'.tree ∧ (r = .ok () → v'.tree.Real root (up ++ cs)) := by
  induction cs generalizing up v with
  | nil => exact ⟨_, v, rfl, .of_states_eq rfl, .refl .., fun _ => by rwa [List.append_nil]⟩
  | cons c cs ih =>
    have hpath : up ++ c :: cs = up ++ [c] ++ cs := by simp
    obtain ⟨v₀, htree₀, hstates₀, hlook⟩ := symlinkMetadata_cases env hreal c
    have hreal₀ : v₀.tree.Real root up := by rwa [htree₀]
    have hsame : v.Through (Grown v.tree root (up ++ c :: cs)) v₀ := .of_states_eq hstates₀
    have hstay : Grown v.tree root (up ++ c :: cs) v₀.tree := htree₀ ▸ .refl ..
    unfold createDirsNoSymlink
    rcases hlook with ⟨e, hlook⟩ | hlook
    · rw [hlook]
      exact ⟨_, v₀, rfl, hsame, hstay, fun hr => by cases hr⟩
    · rw [hlook, List.append_assoc]
      rcases hnode : v.tree.node (root ++ (up ++ [c])) with _ | content | _ | _
      · -- nothing is there: a directory is made
        dsimp only
        rw [← htree₀]
        rcases call_cases env v₀ (makeNew env root v₀.tree up c .dir) with
          ⟨t, v₁, hmade, hcall, htree, hstates⟩ | ⟨e, v₁, hcall, htree, hstates⟩
        · obtain ⟨-, hfree, hset⟩ := makeNew_eq_ok hreal₀ hmade
          rw [List.append_assoc] at hfree hset
          rw [← htree] at hset
          have hgrown : Grown v₀.tree root (up ++ c :: cs) v₁.tree :=
            .of_update (by simp) (hpath ▸ List.prefix_append ..) hfree hset
          have hreal₁ : v₁.tree.Real root (up ++ [c]) := by
            refine PlaceTree.Real.concat (hreal₀.mono hgrown.kept) ?_
            rw [hset, Function.update_self]
          rw [hcall]
          dsimp only
          obtain ⟨r, v₂, heq, hthrough, hall, hdone⟩ := ih hreal₁
          rw [← hpath] at hthrough hall hdone
          refine ⟨r, v₂, heq, ?_, hgrown.trans hall, hdone⟩
          have hmore : v.Through (Grown v₀.tree root (up ++ c :: cs)) v₁ :=
            .of_concat (hstates.trans (congrArg (· ++ [t]) hstates₀)) (htree ▸ hgrown)
          exact hmore.trans (hthrough.mono fun _ => hgrown.trans)
        · rw [hcall]
          refine ⟨_, v₁, rfl, .of_states_eq (hstates.trans hstates₀), ?_, fun hr => by cases hr⟩
          rw [htree]
          exact .refl ..
      · exact ⟨_, v₀, rfl, hsame, hstay, fun hr => by cases hr⟩
      · -- a directory is there already
        have hreal₁ : v₀.tree.Real root (up ++ [c]) := hreal₀.concat (by rw [htree₀]; exact hnode)
        obtain ⟨r, v', heq, hthrough, hall, hdone⟩ := ih hreal₁
        rw [← hpath, htree₀] at hthrough hall
        rw [← hpath] at hdone
        exact ⟨r, v', heq, (Volume.Through.of_states_eq hstates₀).trans hthrough, hall, hdone⟩
      · exact ⟨_, v₀, rfl, hsame, hstay, fun hr => by cases hr⟩

/-! ### The temporary file -/

/-- The tree is `t` but for a temporary file with this content, in a directory that the path really leads to. -/
structure Holding (t : PlaceTree Str Bytes) (root up : List Str) (tmp : Str) (content : Bytes)
    (s : PlaceTree Str Bytes) : Prop where
  real : t.Real root up
  dir : t.node (root ++ up) = some .dir
  free : t.node (root ++ up ++ [tmp]) = none
  node : s.node = Function.update t.node (root ++ up ++ [tmp]) (some (.file content))

theorem Holding.kept (h : Holding t root up tmp content s) {p : List Str} (hp : t.node p ≠ none) :
    s.node p = t.node p := by
  have hne : p ≠ root ++ up ++ [tmp] := by
    rintro rfl
    exact hp h.free
  rw [h.node, Function.update_of_ne hne]

theorem Holding.resolve (h : Holding t root up tmp content s) : s.resolve env.follow root up = some (root ++ up) :=
  (h.real.mono fun _ hp => h.kept hp).resolve env.follow

private theorem Holding.set_node (h : Holding t root up tmp content s) (n : Option (Node Bytes)) :
    (s.set (root ++ up) tmp n).node = Function.update t.node (root ++ up ++ [tmp]) n := by
  have hdir : s.node (root ++ up) = some .dir := by
    rw [h.kept (by rw [h.dir]; exact Option.some_ne_none _), h.dir]
  have hleaf : s.node (root ++ up ++ [tmp]) ≠ some .dir := by
    rw [h.node, Function.update_self]
    exact fun heq => by cases heq
  rw [PlaceTree.set_node hdir hleaf, h.node, Function.update_idem]

/-- Bytes come to the end of the temporary file. -/
private theorem Holding.append (h : Holding t root up tmp content s) (env : Surroundings) (bytes : Bytes) :
    ∃ s', appendBytes env root s up tmp bytes = .ok s' ∧ Holding t root up tmp (content ++ bytes) s' := by
  refine ⟨s.set (root ++ up) tmp (some (.file (content ++ bytes))), ?_, h.real, h.dir, h.free, h.set_node _⟩
  unfold appendBytes
  rw [h.resolve]
  dsimp only
  rw [h.node, Function.update_self]

/-- When it is removed, everything is as before. -/
private theorem Holding.remove (h : Holding t root up tmp content s) (env : Surroundings) :
    ∃ s', removeFile env root s up tmp = .ok s' ∧ s'.node = t.node := by
  refine ⟨s.set (root ++ up) tmp none, ?_, by rw [h.set_node, ← h.free, Function.update_eq_self]⟩
  unfold removeFile
  rw [h.resolve]
  dsimp only
  rw [h.node, Function.update_self]

/-- It is renamed to where nothing is, or that fails. -/
private theorem Holding.rename (h : Holding t root up tmp content s)
    (hplain : t.node (root ++ up ++ [name]) = none ∨ t.node (root ++ up ++ [name]) = some .dir) :
    (∃ e, renameFile env root s up tmp name = .error e) ∨
    ∃ s', renameFile env root s up tmp name = .ok s' ∧ t.node (root ++ up ++ [name]) = none ∧
      s'.node = Function.update t.node (root ++ up ++ [name]) (some (.file content)) := by
  unfold renameFile
  rw [h.resolve]
  dsimp only
  have hself : s.node (root ++ up ++ [tmp]) = some (.file content) := by rw [h.node, Function.update_self]
  rw [hself]
  dsimp only
  by_cases hsame : tmp = name
  · subst hsame
    rw [if_pos rfl]
    exact Or.inr ⟨s, rfl, h.free, h.node⟩
  · rw [if_neg hsame]
    have hother : root ++ up ++ [name] ≠ root ++ up ++ [tmp] := by
      intro heq
      exact hsame (List.singleton_inj.1 (List.append_cancel_left heq)).symm
    rcases hplain with hnone | hdirectory
    · have htarget : s.node (root ++ up ++ [name]) = none := by rw [h.node, Function.update_of_ne hother, hnone]
      have hdir : s.node (root ++ up) = some .dir := by
        rw [h.kept (by rw [h.dir]; exact Option.some_ne_none _), h.dir]
      have hleaf : s.node (root ++ up ++ [name]) ≠ some .dir := by
        rw [htarget]
        exact fun heq => by cases heq
      rw [if_neg hleaf]
      refine Or.inr ⟨_, rfl, hnone, ?_⟩
      have hput := PlaceTree.set_node hdir hleaf (some (.file content))
      have hup : root ++ up ≠ root ++ up ++ [name] := fun heq => by simpa using congrArg List.length heq
      have hdir' : (s.set (root ++ up) name (some (.file content))).node (root ++ up) = some .dir := by
        rw [hput, Function.update_of_ne hup, hdir]
      have hleaf' : (s.set (root ++ up) name (some (.file content))).node (root ++ up ++ [tmp]) ≠ some .dir := by
        rw [hput, Function.update_of_ne hother.symm, hself]
        exact fun heq => by cases heq
      have hback : Function.update t.node (root ++ up ++ [tmp]) none = t.node := by
        rw [← h.free, Function.update_eq_self]
      rw [PlaceTree.set_node hdir' hleaf', hput, h.node, Function.update_comm hother.symm, Function.update_idem,
        Function.update_comm hother, hback]
    · have htarget : s.node (root ++ up ++ [name]) = some .dir := by
        rw [h.kept (by rw [hdirectory]; exact Option.some_ne_none _), hdirectory]
      rw [if_pos htarget]
      exact Or.inl ⟨_, rfl⟩

/-- The tree is `t`, but there may be one more file in a directory. -/
def OneMore (t : PlaceTree Str Bytes) (place : List Str) (s : PlaceTree Str Bytes) : Prop :=
  s.node = t.node ∨
    ∃ name content, t.node (place ++ [name]) = none ∧
      s.node = Function.update t.node (place ++ [name]) (some (.file content))

private theorem Holding.oneMore (h : Holding t root up tmp content s) : OneMore t (root ++ up) s :=
  Or.inr ⟨tmp, content, h.free, h.node⟩

/-- The tree is `t`, but a temporary file has been left in a directory. -/
def Left (env : Surroundings) (t : PlaceTree Str Bytes) (place : List Str) (s : PlaceTree Str Bytes) : Prop :=
  ∃ i suffix content, env.random i = .ok suffix ∧ t.node (place ++ [tempName suffix]) = none ∧
    s.node = Function.update t.node (place ++ [tempName suffix]) (some (.file content))

/-- A temporary file is made where nothing is, under a name that has been drawn, or nothing changes. -/
private theorem createPrivateTemp_spec (env : Surroundings) (hreal : v.tree.Real root up) (attempts : Nat) :
    (∃ e v', createPrivateTemp env root up attempts v = (.error e, v') ∧ v'.tree = v.tree ∧ v'.states = v.states) ∨
    ∃ i suffix v', env.random i = .ok suffix ∧ createPrivateTemp env root up attempts v = (.ok (tempName suffix), v') ∧
      Holding v.tree root up (tempName suffix) [] v'.tree ∧ v'.states = v.states ++ [v'.tree] := by
  induction attempts generalizing v with
  | zero => exact Or.inl ⟨_, v, rfl, rfl, rfl⟩
  | succ attempts ih =>
    unfold createPrivateTemp
    cases hdrawn : env.random v.calls with
    | error e => exact Or.inl ⟨e, v, rfl, rfl, rfl⟩
    | ok suffix =>
      dsimp only
      rcases call_cases env v (makeNew env root v.tree up (tempName suffix) (.file [])) with
        ⟨t, v', hmade, hcall, htree, hstates⟩ | ⟨e, v', hcall, htree, hstates⟩
      · obtain ⟨hdir, hfree, hnode⟩ := makeNew_eq_ok hreal hmade
        rw [hcall]
        refine Or.inr ⟨_, suffix, v', hdrawn, rfl, ⟨hreal, hdir, hfree, ?_⟩, ?_⟩
        · rw [htree, hnode]
        · rw [hstates, htree]
      · rw [hcall]
        dsimp only
        by_cases he : e = fileExists
        · rw [if_pos he]
          have hreal' : v'.tree.Real root up := by rwa [htree]
          rcases ih hreal' with ⟨e', v'', heq, htree', hstates'⟩ | ⟨i, suffix', v'', hdrawn', heq, hhold, hstates'⟩
          · exact Or.inl ⟨e', v'', heq, htree'.trans htree, hstates'.trans hstates⟩
          · refine Or.inr ⟨i, suffix', v'', hdrawn', heq, ?_, by rw [hstates', hstates]⟩
            rwa [← htree]
        · rw [if_neg he]
          exact Or.inl ⟨e, v', rfl, htree, hstates⟩

/-- The pieces come to the end of the temporary file, or the first ones do. -/
private theorem writeAll_spec (env : Surroundings) (h : Holding t root up tmp content v.tree) (pieces : List Bytes) :
    ∃ r v', SafeFileWriter.writeAll env root up tmp pieces v = (r, v') ∧ v.Through (OneMore t (root ++ up)) v' ∧
      (∃ written, Holding t root up tmp written v'.tree) ∧
      (r = .ok () → Holding t root up tmp (content ++ pieces.flatten) v'.tree) := by
  induction pieces generalizing content v with
  | nil => exact ⟨_, v, rfl, .of_states_eq rfl, ⟨content, h⟩, fun _ => by simpa using h⟩
  | cons piece pieces ih =>
    unfold SafeFileWriter.writeAll
    obtain ⟨s, happend, hhold⟩ := h.append env piece
    rw [happend]
    rcases call_cases env v (.ok s) with ⟨t', v', hok, hcall, htree, hstates⟩ | ⟨e, v', hcall, htree, hstates⟩
    · rw [Except.ok.injEq] at hok
      subst hok
      rw [hcall]
      dsimp only
      rw [← htree] at hhold
      obtain ⟨r, v'', heq, hthrough, hwritten, hdone⟩ := ih hhold
      refine ⟨r, v'', heq, ?_, hwritten, fun hr => ?_⟩
      · exact Volume.Through.trans (.of_concat hstates (htree ▸ hhold.oneMore)) hthrough
      · simpa using hdone hr
    · rw [hcall]
      refine ⟨_, v', rfl, .of_states_eq hstates, ⟨content, ?_⟩, fun hr => by cases hr⟩
      rwa [htree]

/-- The temporary file is renamed to where nothing is, or nothing but its name stands there. -/
private theorem commit_spec (env : Surroundings) (h : Holding t root up tmp content v.tree)
    (hplain : t.node (root ++ up ++ [name]) = none ∨ t.node (root ++ up ++ [name]) = some .dir) :
    ∃ r v', SafeFileWriter.commit env root up tmp name v = (r, v') ∧ v.Through (OneMore t (root ++ up)) v' ∧
      ((∃ e, r = .error e ∧ Holding t root up tmp content v'.tree) ∨
        r = .ok () ∧ t.node (root ++ up ++ [name]) = none ∧
          v'.tree.node = Function.update t.node (root ++ up ++ [name]) (some (.file content))) := by
  unfold SafeFileWriter.commit
  rcases call_cases env v (.ok v.tree) with ⟨t', v', hok, hcall, htree, hstates⟩ | ⟨e, v', hcall, htree, hstates⟩
  · rw [Except.ok.injEq] at hok
    subst hok
    rw [hcall]
    dsimp only
    rw [← htree] at h
    have hreal : v'.tree.Real root up := h.real.mono fun _ hp => h.kept hp
    obtain ⟨v₁, htree₁, hstates₁, ⟨e, hlook⟩ | ⟨hlook, -⟩⟩ := rejectSymlink_cases env hreal name
    · rw [hlook]
      rw [← htree₁] at h
      exact ⟨_, v₁, rfl, .of_concat (hstates₁.trans hstates) (htree ▸ htree₁ ▸ h.oneMore), Or.inl ⟨e, rfl, h⟩⟩
    · rw [hlook]
      have hsynced : v.Through (OneMore t (root ++ up)) v₁ := .of_concat (hstates₁.trans hstates) (htree ▸ h.oneMore)
      rw [← htree₁] at h
      dsimp only
      rcases call_cases env v₁ (renameFile env root v₁.tree up tmp name) with
        ⟨s, v'', hrenamed, hcall', htree', hstates'⟩ | ⟨e, v'', hcall', htree', hstates'⟩
      · rcases h.rename hplain with ⟨e, herr⟩ | ⟨s', hok, hnone, hnode⟩
        · rw [herr] at hrenamed
          cases hrenamed
        · rw [hok, Except.ok.injEq] at hrenamed
          subst hrenamed
          refine ⟨_, v'', hcall', hsynced.trans (.of_concat hstates' (Or.inr ⟨name, content, hnone, hnode⟩)), Or.inr ?_⟩
          rw [htree']
          exact ⟨rfl, hnone, hnode⟩
      · refine ⟨_, v'', hcall', hsynced.trans (.of_states_eq hstates'), Or.inl ⟨e, rfl, ?_⟩⟩
        rwa [htree']
  · rw [hcall]
    refine ⟨_, v', rfl, .of_states_eq hstates, Or.inl ⟨e, rfl, ?_⟩⟩
    rwa [htree]

/-- When a writer is dropped, everything is as before or the temporary file is left. -/
private theorem drop_spec (env : Surroundings) (h : Holding t root up tmp content v.tree) :
    v.Through (OneMore t (root ++ up)) (v.call env (removeFile env root v.tree up tmp)).2 ∧
      ((v.call env (removeFile env root v.tree up tmp)).2.tree.node = t.node ∨
        Holding t root up tmp content (v.call env (removeFile env root v.tree up tmp)).2.tree) := by
  obtain ⟨s, hremoved, hnode⟩ := h.remove env
  rcases call_cases env v (removeFile env root v.tree up tmp) with
    ⟨s', v', hok, hcall, htree, hstates⟩ | ⟨e, v', hcall, htree, hstates⟩
  · rw [hremoved, Except.ok.injEq] at hok
    subst hok
    rw [hcall]
    refine ⟨.of_concat hstates (Or.inl hnode), Or.inl ?_⟩
    show v'.tree.node = t.node
    rw [htree, hnode]
  · rw [hcall]
    refine ⟨.of_states_eq hstates, Or.inr ?_⟩
    show Holding t root up tmp content v'.tree
    rwa [htree]

/-- A file is written whole where nothing was, or everything is as before but for a temporary file that may be left. -/
theorem writeFile_spec (fill : Filling) (hreal : v.tree.Real root up)
    (hnew : ∀ content, v.tree.node (root ++ up ++ [name]) ≠ some (.file content)) :
    ∃ r v', writeFile env root up name fill v = (r, v') ∧ v.Through (OneMore v.tree (root ++ up)) v' ∧
      ((∃ e, r = .error e ∧ (v'.tree.node = v.tree.node ∨ Left env v.tree (root ++ up) v'.tree)) ∨
        r = .ok () ∧ fill.result = .ok () ∧ v.tree.node (root ++ up ++ [name]) = none ∧
          v'.tree.node = Function.update v.tree.node (root ++ up ++ [name]) (some (.file fill.pieces.flatten))) := by
  unfold writeFile SafeFileWriter.create
  obtain ⟨v₀, htree₀, hstates₀, ⟨e, hlook⟩ | ⟨hlook, hlink⟩⟩ := rejectSymlink_cases env hreal name
  · rw [hlook]
    exact ⟨_, v₀, rfl, .of_states_eq hstates₀, Or.inl ⟨e, rfl, Or.inl (congrArg _ htree₀)⟩⟩
  · have hplain : v.tree.node (root ++ up ++ [name]) = none ∨ v.tree.node (root ++ up ++ [name]) = some .dir := by
      rcases hnode : v.tree.node (root ++ up ++ [name]) with _ | content | _ | _
      · exact Or.inl rfl
      · exact absurd hnode (hnew content)
      · exact Or.inr rfl
      · exact absurd hnode hlink
    rw [hlook]
    dsimp only
    have hreal₀ : v₀.tree.Real root up := by rwa [htree₀]
    rcases createPrivateTemp_spec env hreal₀ 8 with
      ⟨e, v₁, heq, htree, hstates⟩ | ⟨i, suffix, v₁, hdrawn, heq, hhold, hstates⟩
    · rw [heq]
      refine ⟨_, v₁, rfl, .of_states_eq (hstates.trans hstates₀), Or.inl ⟨e, rfl, Or.inl ?_⟩⟩
      rw [htree, htree₀]
    · rw [heq]
      rw [htree₀] at hhold
      dsimp only
      have hstart : v.Through (OneMore v.tree (root ++ up)) v₁ :=
        .of_concat (hstates.trans (congrArg (· ++ [v₁.tree]) hstates₀)) hhold.oneMore
      -- when anything fails, dropping the writer removes the temporary file or leaves it
      have hdrop : ∀ (v' : Volume) (written : Bytes), v.Through (OneMore v.tree (root ++ up)) v' →
          Holding v.tree root up (tempName suffix) written v'.tree →
          v.Through (OneMore v.tree (root ++ up)) (v'.call env (removeFile env root v'.tree up (tempName suffix))).2 ∧
            ((v'.call env (removeFile env root v'.tree up (tempName suffix))).2.tree.node = v.tree.node ∨
              Left env v.tree (root ++ up) (v'.call env (removeFile env root v'.tree up (tempName suffix))).2.tree) := by
        intro v' written hthrough hhold
        obtain ⟨hmore, hsame | hleft⟩ := drop_spec env hhold
        · exact ⟨hthrough.trans hmore, Or.inl hsame⟩
        · exact ⟨hthrough.trans hmore, Or.inr ⟨i, suffix, written, hdrawn, hleft.free, hleft.node⟩⟩
      unfold SafeFileWriter.run
      obtain ⟨r, v₂, hwrite, hthrough, ⟨written, hwritten⟩, hdone⟩ := writeAll_spec env hhold fill.pieces
      rw [hwrite]
      have hupto := hstart.trans hthrough
      cases r with
      | error e =>
        obtain ⟨hall, hnode⟩ := hdrop v₂ written hupto hwritten
        exact ⟨_, _, rfl, hall, Or.inl ⟨e, rfl, hnode⟩⟩
      | ok _ =>
        have hfull := hdone rfl
        rw [List.nil_append] at hfull
        dsimp only
        cases hresult : fill.result with
        | error e =>
          obtain ⟨hall, hnode⟩ := hdrop v₂ _ hupto hfull
          exact ⟨_, _, rfl, hall, Or.inl ⟨e, rfl, hnode⟩⟩
        | ok _ =>
          dsimp only
          obtain ⟨r, v₃, hcommit, hlast, hend⟩ := commit_spec env hfull hplain
          rw [hcommit]
          rcases hend with ⟨e, rfl, hhold'⟩ | ⟨rfl, hnone, hnode⟩
          · obtain ⟨hall, hnode⟩ := hdrop v₃ _ (hupto.trans hlast) hhold'
            exact ⟨_, _, rfl, hall, Or.inl ⟨e, rfl, hnode⟩⟩
          · exact ⟨_, v₃, rfl, hupto.trans hlast, Or.inr ⟨rfl, rfl, hnone, hnode⟩⟩

end FileSec
