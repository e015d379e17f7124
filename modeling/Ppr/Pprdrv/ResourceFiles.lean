import Ppr.Lib.Paths
import Ppr.Spool.Deferred
import Ppr.Spool.ResLines

/-!
# The files of resources

`try_resource_dir()` of `findres.c`, and where the files are that `find_resource()` finds for the
resources of a job.  The type and the name of a resource are words of a comment, and they get into the
file name as they are.
-/

namespace Ppr.Pprdrv

open Paths QEntryFile QueueEntry

/-! ## File names -/

/-- `MAX_PPR_PATH`. -/
def maxPprPath : ℕ := 128

/-- `ppr_fnamef()`: nothing if it throws because the name is too long. -/
def pprFnamef (items : List (List Byte)) : Option (List Byte) :=
  if items.flatten.length < maxPprPath then some items.flatten else none

/-- `resource_fname`. -/
def resourceFname (cachedir resType resName : List Byte) (version : ℚ) (revision : CInt) :
    Option (List Byte) :=
  if resType = ascii "procset" then
    pprFnamef [cachedir, ascii "/procset/", resName, ascii "-", guDtostr version, ascii "-",
      cDecimal revision]
  else pprFnamef [cachedir, ascii "/", resType, ascii "/", resName]

/-- What a component of a file name does. -/
def hopOf (c : List Byte) : Hop (List Byte) :=
  if c = [] ∨ c = ascii "." then .stay else if c = ascii ".." then .up else .down c

/-- The components of a file name. -/
def hops (path : List Byte) : List (Hop (List Byte)) := (path.splitOn 47).map hopOf

/-- `try_resource_dir()`. -/
def tryResourceDir (tree : FileTree (List Byte)) (cachedir resType resName : List Byte) (version : ℚ)
    (revision : CInt) : Option (List Byte) := do
  let fname ← resourceFname cachedir resType resName version revision
  -- `stat()`
  if (tree.walk [] (hops fname)).isSome then some fname else none

/-- The name of a file or directory. -/
def IsFileName (n : List Byte) : Prop := hopOf n = .down n ∧ (47 : Byte) ∉ n

instance : DecidablePred IsFileName := fun _ => inferInstanceAs (Decidable (_ ∧ _))

/-- `RESOURCEDIR`. -/
structure ResourceDir where
  names : List (List Byte)
  plain : ∀ n ∈ names, IsFileName n

def ResourceDir.text (dir : ResourceDir) : List Byte := dir.names.flatMap (47 :: ·)

/-- The resources of a tree of files. -/
def ResourceDir.cache (dir : ResourceDir) (tree : FileTree (List Byte)) (fontIndex : Option (List Byte)) :
    Cache where
  fontIndex := fontIndex
  tryResourceDir := Pprdrv.tryResourceDir tree dir.text

/-! ## Components -/

theorem hops_slash (a b : List Byte) : hops (a ++ 47 :: b) = hops a ++ hops b := by
  rw [hops, List.splitOn_append_cons_self, List.map_append]
  rfl

theorem hops_name {n : List Byte} (h : IsFileName n) : hops n = [.down n] := by
  rw [hops, List.splitOn_eq_singleton h.2, List.map_singleton, h.1]

/-- `RESOURCEDIR` leads from the root to its place. -/
theorem ResourceDir.hops_text (dir : ResourceDir) : hops dir.text = .stay :: dir.names.map .down := by
  have hlist : ∀ ns : List (List Byte), (∀ n ∈ ns, IsFileName n) →
      hops (ns.flatMap (47 :: ·)) = .stay :: ns.map .down := by
    intro ns hns
    induction ns with
    | nil => rfl
    | cons n ns ih =>
      rw [List.forall_mem_cons] at hns
      have hrest := ih hns.2
      cases ns with
      | nil =>
        show hops ([] ++ 47 :: (n ++ [])) = _
        rw [List.append_nil, hops_slash, hops_name hns.1]
        rfl
      | cons m ns =>
        have hhead : hops (47 :: (m ++ ns.flatMap (47 :: ·))) =
            .stay :: hops (m ++ ns.flatMap (47 :: ·)) := hops_slash [] _
        have htail : hops (m ++ ns.flatMap (47 :: ·)) = (m :: ns).map .down :=
          (List.cons.inj (hhead.symm.trans hrest)).2
        show hops ([] ++ 47 :: (n ++ 47 :: (m ++ ns.flatMap (47 :: ·)))) = _
        rw [hops_slash, hops_slash, hops_name hns.1, htail]
        rfl
  exact hlist dir.names dir.plain

theorem ResourceDir.place_text (dir : ResourceDir) : place [] (hops dir.text) = dir.names := by
  rw [dir.hops_text, place_cons, place_down]
  rfl

/-! ## Where a file is -/

/-- What comes behind the directory of the type. -/
def ResLine.fileName (r : ResLine) : List Byte :=
  if r.type = ascii "procset" then
    r.name ++ ascii "-" ++ guDtostr r.version ++ ascii "-" ++ cDecimal r.revision
  else r.name

/-- The file name for a resource. -/
def ResourceDir.fname (dir : ResourceDir) (r : ResLine) : List Byte :=
  dir.text ++ 47 :: (r.type ++ 47 :: r.fileName)

theorem resourceFname_eq (dir : ResourceDir) (r : ResLine) :
    resourceFname dir.text r.type r.name r.version r.revision =
      if (dir.fname r).length < maxPprPath then some (dir.fname r) else none := by
  have hslash : ascii "/" = [47] := rfl
  rw [resourceFname]
  by_cases hproc : r.type = ascii "procset"
  · have hflat : [dir.text, ascii "/procset/", r.name, ascii "-", guDtostr r.version, ascii "-",
        cDecimal r.revision].flatten = dir.fname r := by
      have hsplit : ascii "/procset/" = 47 :: (ascii "procset" ++ [47]) := by decide
      rw [ResourceDir.fname, ResLine.fileName, if_pos hproc, hproc, hsplit]
      simp
    rw [if_pos hproc, pprFnamef, hflat]
  · have hflat : [dir.text, ascii "/", r.type, ascii "/", r.name].flatten = dir.fname r := by
      rw [ResourceDir.fname, ResLine.fileName, if_neg hproc, hslash]
      simp
    rw [if_neg hproc, pprFnamef, hflat]

/-- The file is in the directory of the type, and that is in `RESOURCEDIR`. -/
def ResourceDir.Holds (dir : ResourceDir) (tree : FileTree (List Byte)) (type f : List Byte) : Prop :=
  ∃ d p, tree.walk [] (hops (dir.text ++ 47 :: type)) = some d ∧ Below dir.names d ∧
    tree.walk [] (hops f) = some p ∧ Below d p

/-- Each file that `find_resource()` finds for the resource is where it should be. -/
def LookupInside (dir : ResourceDir) (r : ResLine) : Prop :=
  ∀ tree fontIndex f features,
    findResource (dir.cache tree fontIndex) r.type r.name r.version r.revision = some (f, features) →
      dir.Holds tree r.type f

/-- The type leads down from `RESOURCEDIR`, and the name leads down from there. -/
def ResourceDir.Keeps (dir : ResourceDir) (r : ResLine) : Prop :=
  (Route.of (hops r.type)).Descends dir.names ∧
    (Route.of (hops r.fileName)).Descends ((Route.of (hops r.type)).place dir.names)

theorem ResourceDir.hops_fname (dir : ResourceDir) (r : ResLine) :
    hops (dir.fname r) = hops (dir.text ++ 47 :: r.type) ++ hops r.fileName := by
  rw [fname, hops_slash, hops_slash, hops_slash, List.append_assoc]

theorem ResourceDir.place_type (dir : ResourceDir) (type : List Byte) :
    place [] (hops (dir.text ++ 47 :: type)) = (Route.of (hops type)).place dir.names := by
  rw [hops_slash, place_append, dir.place_text, Route.place_of]

theorem findResource_cache (dir : ResourceDir) (r : ResLine) (hfont : r.type ≠ ascii "font")
    (tree : FileTree (List Byte)) (fontIndex : Option (List Byte)) (f : List Byte) (features : CInt) :
    findResource (dir.cache tree fontIndex) r.type r.name r.version r.revision = some (f, features) ↔
      (dir.fname r).length < maxPprPath ∧ (tree.walk [] (hops (dir.fname r))).isSome ∧
        f = dir.fname r ∧ features = 0 := by
  rw [findResource, if_neg hfont]
  show (tryResourceDir tree dir.text r.type r.name r.version r.revision).map _ = _ ↔ _
  rw [tryResourceDir, resourceFname_eq]
  by_cases hlength : (dir.fname r).length < maxPprPath
  · by_cases hstat : (tree.walk [] (hops (dir.fname r))).isSome
    · simp [hlength, hstat, @eq_comm _ f, @eq_comm _ features]
    · simp [hlength, hstat]
  · simp [hlength]

theorem lookupInside_iff (dir : ResourceDir) (r : ResLine) (hfont : r.type ≠ ascii "font") :
    LookupInside dir r ↔ maxPprPath ≤ (dir.fname r).length ∨ dir.Keeps r := by
  have hname : place ((Route.of (hops r.type)).place dir.names) (hops r.fileName) =
      (Route.of (hops r.fileName)).place ((Route.of (hops r.type)).place dir.names) :=
    (Route.place_of _ _).symm
  constructor
  · intro h
    rcases Nat.lt_or_ge (dir.fname r).length maxPprPath with hlength | hlength
    · -- in a tree where every place is a directory the file is found
      right
      have hwalk := FileTree.walk_full [] (hops (dir.fname r))
      obtain ⟨d, p, hd, hbelow, hp, hbelow'⟩ := h FileTree.full none _ 0
        ((findResource_cache dir r hfont _ _ _ _).2 ⟨hlength, by rw [hwalk]; rfl, rfl, rfl⟩)
      have hdir := (FileTree.walk_place hd).trans (dir.place_type r.type)
      have hfile := FileTree.walk_place hp
      rw [dir.hops_fname, place_append, dir.place_type, hname] at hfile
      rw [hdir] at hbelow hbelow'
      rw [hfile] at hbelow'
      exact ⟨(Route.descends_iff _ _).2 hbelow, (Route.descends_iff _ _).2 hbelow'⟩
    · exact .inl hlength
  · intro h tree fontIndex f features hfound
    obtain ⟨hlength, hstat, rfl, -⟩ := (findResource_cache dir r hfont _ _ _ _).1 hfound
    obtain ⟨htype, hfile⟩ := h.resolve_left (Nat.not_le.2 hlength)
    obtain ⟨p, hp⟩ := Option.isSome_iff_exists.1 hstat
    have hwalk := hp
    rw [dir.hops_fname] at hwalk
    obtain ⟨hd, hrest⟩ := FileTree.walk_append hwalk
    have hplace := FileTree.walk_place hrest
    rw [dir.place_type, hname] at hplace
    refine ⟨_, p, hd, ?_, hp, ?_⟩
    · rw [dir.place_type]
      exact (Route.descends_iff _ _).1 htype
    · rw [dir.place_type, hplace]
      exact (Route.descends_iff _ _).1 hfile

/-- A type and a name without slashes keep in. -/
theorem keeps_of_isFileName (dir : ResourceDir) {r : ResLine} (htype : IsFileName r.type)
    (hname : IsFileName r.fileName) : dir.Keeps r := by
  have hdown : ∀ n, IsFileName n → ∀ base, (Route.of (hops n)).Descends base := by
    intro n hn base
    rw [hops_name hn]
    exact Route.descends_of_ups rfl (List.cons_ne_nil n []) base
  exact ⟨hdown _ htype _, hdown _ hname _⟩

/-! ## Documents -/

/-- The resources of a job, as pprdrv reads them. -/
def readBackResources (things : List (Thing ℚ)) : Except FatalError (List ResLine) :=
  readResLines ((rawLines (sectionText (writeResourceLines things) "EndRes")).map chop)

/-- What is found for the resources of a document is where it should be. -/
def LookupsInside (dir : ResourceDir) (things : List (Thing ℚ)) : Prop :=
  ∀ rs, readBackResources things = .ok rs → ∀ r ∈ rs, r.type ≠ ascii "font" → LookupInside dir r

/-- It is exactly if each of them keeps in, but for those with too long a file name. -/
theorem lookupsInside_iff (dir : ResourceDir) (things : List (Thing ℚ)) :
    LookupsInside dir things ↔
      ∀ rs, readBackResources things = .ok rs → ∀ r ∈ rs, r.type ≠ ascii "font" →
        maxPprPath ≤ (dir.fname r).length ∨ dir.Keeps r := by
  refine forall_congr' fun rs => forall_congr' fun _ => forall_congr' fun r => forall_congr' fun _ => ?_
  exact forall_congr' fun hfont => lookupInside_iff dir r hfont

/-- The things that a list of needed resources notes. -/
def neededThings (line : List Byte) : List (Thing ℚ) :=
  let entries := entriesOf ⟨0, guGetdouble, guDtostr⟩ .documentNeededResources ((tokenize line).drop 1)
  entries.foldl (fun things r => refer ResourceRef.needed.flags (.resource r) things) []

/-- The usual place. -/
def shareDir : ResourceDir where
  names := [ascii "usr", ascii "share", ascii "ppr", ascii "resources"]
  plain := by decide

/-- An encoding by the name of the file of passwords. -/
theorem not_lookupsInside_passwd :
    ¬∀ (dir : ResourceDir) (line : List Byte), LookupsInside dir (neededThings line) := by
  intro h
  let line := ascii "%%DocumentNeededResources: encoding ../../../../../etc/passwd"
  let r : ResLine :=
    ⟨true, false, ascii "encoding", ascii "../../../../../etc/passwd", 0, 0⟩
  have hthings : neededThings line =
      [⟨.resource ⟨ascii "encoding", ascii "../../../../../etc/passwd", 0, 0⟩, 1⟩] := by
    have htokens : tokenize line = [ascii "%%DocumentNeededResources:", ascii "encoding",
        ascii "../../../../../etc/passwd"] := by decide
    rw [neededThings, htokens]
    rfl
  have hread : readBackResources (neededThings line) = .ok [r] := by
    rw [hthings]
    decide +kernel
  let tree : FileTree (List Byte) := .ofFiles
    [[ascii "etc", ascii "passwd"],
      shareDir.names ++ [ascii "encoding", ascii "ISOLatin1Encoding"]]
  have hfound : findResource (shareDir.cache tree none) r.type r.name r.version r.revision =
      some (ascii "/usr/share/ppr/resources/encoding/../../../../../etc/passwd", 0) := by
    refine (findResource_cache shareDir r (by decide) _ _ _ _).2 ⟨?_, ?_, ?_, rfl⟩
    all_goals decide +kernel
  have hinside := h shareDir line _ hread r List.mem_cons_self (by decide)
  obtain ⟨d, p, -, hbelow, hp, hbelow'⟩ := hinside tree none _ _ hfound
  have hplace : p = [ascii "etc", ascii "passwd"] := by
    rw [FileTree.walk_place hp]
    decide
  obtain ⟨e, -, hd⟩ := hbelow
  obtain ⟨e', -, hp'⟩ := hbelow'
  rw [hplace, hd] at hp'
  exact absurd (List.cons.inj hp').1 (by decide)

end Ppr.Pprdrv
