import Ppr.Libgu.Sscanf
import Ppr.Libgu.Strings

/-!
# Names of jobs

`parse_qfname()` of `parse_qfname.c`, `jobid()` of `jobid.c`, and `parse_jobname()` and
`parse_destname()` of `ppop.c`.
-/

namespace Ppr

/-! ## Destinations -/

/-- `DEST_DISALLOWED`. -/
def destDisallowed : List Byte := [47, 10, 13, 9, 32, 8, 126]

/-- `DEST_DISALLOWED_LEADING`, with the NUL at its end, which `strchr()` finds too. -/
def destDisallowedLeading : List (Option Byte) := [some 46, some 45, none]

/-- The rules for a destination name. -/
def Permitted (dest : List Byte) : Prop :=
  (∀ c ∈ dest, c ∉ destDisallowed) ∧ dest.head? ∉ destDisallowedLeading

instance (dest : List Byte) : Decidable (Permitted dest) := inferInstanceAs (Decidable (_ ∧ _))

/-- The first "ForWhat:" line of an alias. -/
def forWhat (content : List Byte) : Option (List Byte) :=
  (rawLines content).findSome? fun line =>
    match guSscanf (scanFormat "ForWhat: %S") (chop line) with
    | [dest] => some dest.string
    | _ => none

/-- `parse_destname()`, where `aliases` has the contents of the files in `ALIASCONF`. -/
def parseDestname (aliases : List Byte → Option (List Byte)) (destname : List Byte)
    (resolveAliases : Bool) : Option (List Byte) :=
  if ¬ Permitted destname then none
  else if resolveAliases ∧ destname ≠ ascii "all" then
    match aliases destname with
    | none => some destname
    | some content => forWhat content
  else some destname

/-! ## Jobs -/

structure Jobname where
  destname : Option (List Byte)
  id : BitVec 16
  subid : BitVec 16
  deriving DecidableEq

def WILDCARD_JOBID : BitVec 16 := -1

def WILDCARD_SUBID : BitVec 16 := -1

/-- The name of a queue file. -/
def qfname (dest : List Byte) (id subid : ℕ) : List Byte :=
  dest ++ 45 :: (decimal id ++ 46 :: decimal subid)

/-- `parse_qfname()`. -/
def parseQfname (buffer : List Byte) : Option (List Byte × BitVec 16 × BitVec 16) :=
  if 45 ∉ buffer then none
  else
    let ptr := buffer.rtakeWhile (· ≠ 45)
    match guSscanf (scanFormat "%hd.%hd") ptr with
    | [id, subid] =>
      if (id.number 16).slt 0 ∨ (subid.number 16).slt 0 then none
      else some ((buffer.rdropWhile (· ≠ 45)).dropLast, id.number 16, subid.number 16)
    | _ => none

/-- `jobid()`, where the buffer has had `storageSize` bytes. -/
def jobid (storageSize : ℕ) (dest : List Byte) (id subid : ℕ) : List Byte :=
  let storageSize := max storageSize (dest.length + 10)
  let storage := (dest ++ 45 :: decimal id).take (storageSize - 1)
  if 0 < subid then (storage ++ 46 :: decimal subid).take (storageSize - 1) else storage

/-- What follows a hyphen says that the name has ended there. -/
def endsName (s : List Byte) : Bool :=
  s.head? = some 42 || (s.dropWhile isdigit).head? = some 46 || (s.dropWhile isdigit).head? = none

/-- The length of the destination name. -/
def destLength : List Byte → ℕ
  | [] => 0
  | c :: s => if c = 45 ∧ endsName s then 0 else destLength s + 1

/-- `atoi()` into an `INT16_T`. -/
def atoi16 (s : List Byte) : BitVec 16 :=
  (BitVec.ofInt 32 (max (-2 ^ 63) (min (atoi s) (2 ^ 63 - 1)))).setWidth 16

/-- The id behind the hyphen, and what follows it. -/
def scanId (ptr : List Byte) : BitVec 16 × List Byte :=
  if ptr.head? = some 42 then (WILDCARD_JOBID, ptr.tail) else (atoi16 ptr, ptr.dropWhile isdigit)

/-- The number behind a dot. -/
def scanSubid (ptr : List Byte) : BitVec 16 × List Byte :=
  if ptr.head? = some 46 then (atoi16 ptr.tail, ptr.tail.dropWhile isdigit)
  else (WILDCARD_SUBID, ptr)

/-- `parse_jobname()`. -/
def parseJobname (aliases : List Byte → Option (List Byte)) (jobname : List Byte) : Option Jobname :=
  let len := destLength jobname
  if len = 0 then none
  else
    let destname := jobname.take len
    let (id, subid, ptr) := match jobname.drop len with
      | [] => (WILDCARD_JOBID, WILDCARD_SUBID, [])
      | _ :: ptr =>
        let (id, ptr) := scanId ptr
        let (subid, ptr) := scanSubid ptr
        (id, subid, ptr)
    if ptr ≠ [] then none
    else some { destname := parseDestname aliases destname true, id := id, subid := subid }

/-! ## Reading a name back -/

/-- A hyphen in the name is taken for its end. -/
def Misread (dest : List Byte) : Prop :=
  ∃ a b, dest = a ++ 45 :: b ∧ (b.head? = some 42 ∨ (b.dropWhile isdigit).head? = some 46)

theorem parseDestname_of_permitted {aliases : List Byte → Option (List Byte)} {dest : List Byte}
    (h : Permitted dest) (halias : aliases dest = none ∨ dest = ascii "all") :
    parseDestname aliases dest true = some dest := by
  unfold parseDestname
  rw [if_neg (not_not.2 h)]
  rcases halias with halias | rfl
  · split_ifs
    · rw [halias]
    · rfl
  · rw [if_neg (by simp)]

/-- A name that is no alias stands for itself. -/
theorem eq_of_parseDestname {aliases : List Byte → Option (List Byte)} {w d : List Byte}
    (halias : aliases w = none ∨ w = ascii "all") (h : parseDestname aliases w true = some d) :
    d = w := by
  by_cases hw : Permitted w
  · rw [parseDestname_of_permitted hw halias] at h
    exact (Option.some.inj h).symm
  · unfold parseDestname at h
    rw [if_pos hw] at h
    cases h

/-- What `%hd` reads of a number. -/
theorem convert_decimal (n : ℕ) {s : List Byte} (hs : ∀ c ∈ s.head?, isdigit c = false) :
    convert 'd' (decimal n ++ s) = some (.num n, s) := by
  obtain ⟨htake, hdrop⟩ := decimal_span n hs
  obtain ⟨c, d, hd⟩ := List.exists_cons_of_ne_nil (decimal_ne_nil n)
  have hc : c ≠ 45 := by
    rintro rfl
    have h45 := isdigit_decimal (n := n) (c := 45) (by simp [hd])
    cases h45
  have hsign : scanSign (decimal n ++ s) = (1, decimal n ++ s) := by
    unfold scanSign
    rw [if_neg]
    simpa [hd] using hc
  simp only [convert]
  rw [hsign]
  dsimp only
  rw [htake, hdrop, if_neg (decimal_ne_nil n), digitsValue_decimal, one_mul]

/-- A number of at most four digits is an `INT16_T`. -/
theorem atoi16_decimal {n : ℕ} (hn : n ≤ 9999) {s : List Byte} (hs : ∀ c ∈ s.head?, isdigit c = false) :
    atoi16 (decimal n ++ s) = BitVec.ofNat 16 n := by
  unfold atoi16
  rw [atoi_decimal n hs, min_eq_left (by omega), max_eq_right (by omega)]
  apply BitVec.eq_of_toNat_eq
  rw [BitVec.toNat_setWidth, BitVec.toNat_ofInt, BitVec.toNat_ofNat]
  omega

theorem ofInt_natCast (n : ℕ) : BitVec.ofInt 16 (n : ℤ) = BitVec.ofNat 16 n := by
  apply BitVec.eq_of_toNat_eq
  rw [BitVec.toNat_ofInt, BitVec.toNat_ofNat]
  omega

theorem hyphen_notMem_decimal (n : ℕ) : (45 : Byte) ∉ decimal n := fun h => by
  have := isdigit_decimal h
  cases this

theorem span_last {p : List Byte} (hp : 45 ∉ p) (dest : List Byte) :
    (dest ++ 45 :: p).rtakeWhile (· ≠ 45) = p ∧
      (dest ++ 45 :: p).rdropWhile (· ≠ 45) = dest ++ [45] := by
  have hbytes : ∀ c ∈ p.reverse, decide (c ≠ 45) = true := by
    intro c hc
    rw [decide_eq_true_eq]
    rintro rfl
    exact hp (List.mem_reverse.1 hc)
  have hhead : ∀ c ∈ (45 :: dest.reverse).head?, decide (c ≠ 45) = false := by
    intro c hc
    cases hc
    rfl
  obtain ⟨htake, hdrop⟩ := span_append (fun c => decide (c ≠ 45)) (45 :: dest.reverse) hbytes hhead
  have hreverse : (dest ++ 45 :: p).reverse = p.reverse ++ 45 :: dest.reverse := by simp
  unfold List.rtakeWhile List.rdropWhile
  rw [hreverse, htake, hdrop, List.reverse_reverse, List.reverse_cons, List.reverse_reverse]
  exact ⟨rfl, rfl⟩

theorem hyphen_notMem_numbers (id subid : ℕ) : (45 : Byte) ∉ decimal id ++ 46 :: decimal subid := by
  rw [List.mem_append, List.mem_cons, not_or, not_or]
  exact ⟨hyphen_notMem_decimal id, by decide, hyphen_notMem_decimal subid⟩

/-- `parse_qfname()` finds the last hyphen, whatever the name of the destination is. -/
theorem parseQfname_qfname (dest : List Byte) {id subid : ℕ} (hid : id ≤ 9999) (hsub : subid ≤ 9999) :
    parseQfname (qfname dest id subid) = some (dest, BitVec.ofNat 16 id, BitVec.ofNat 16 subid) := by
  obtain ⟨htake, hdrop⟩ := span_last (hyphen_notMem_numbers id subid) dest
  have hscan : guSscanf (scanFormat "%hd.%hd") (decimal id ++ 46 :: decimal subid) =
      [.num id, .num subid] := by
    have hfmt : scanFormat "%hd.%hd" = [.conv 'd', .lit 46, .conv 'd'] := by decide
    have hlast := convert_decimal subid (s := []) nofun
    rw [List.append_nil] at hlast
    have hid := convert_decimal id (s := 46 :: decimal subid) fun c hc => by
      cases hc
      rfl
    rw [hfmt, guSscanf_conv (by simp), hid]
    dsimp only
    rw [guSscanf, if_pos rfl, guSscanf_conv (decimal_ne_nil subid), hlast]
    rfl
  have hnn : ∀ n : ℕ, n ≤ 9999 → ¬ ((Extracted.num n).number 16).slt 0 = true := by
    intro n hn
    show ¬ (BitVec.ofInt 16 (n : ℤ)).slt 0 = true
    rw [ofInt_natCast, BitVec.slt_iff_toInt_lt, BitVec.toInt_eq_toNat_of_lt
      (by rw [BitVec.toNat_ofNat]; omega)]
    simp only [BitVec.ofNat_eq_ofNat, BitVec.toInt_zero, not_lt]
    positivity
  unfold parseQfname
  rw [if_neg (by simp [qfname])]
  show (match guSscanf (scanFormat "%hd.%hd") ((dest ++ 45 :: _).rtakeWhile (· ≠ 45)) with
    | [id, subid] => _
    | _ => none) = _
  rw [htake, hscan]
  dsimp only
  rw [if_neg (not_or.2 ⟨hnn id hid, hnn subid hsub⟩)]
  show some (((dest ++ 45 :: _).rdropWhile (· ≠ 45)).dropLast, BitVec.ofInt 16 (id : ℤ),
    BitVec.ofInt 16 (subid : ℤ)) = _
  rw [hdrop, List.dropLast_concat, ofInt_natCast, ofInt_natCast]

/-! ## Names of jobs as they are shown -/

/-- The digits of the names fit into the buffer. -/
theorem jobid_eq (storageSize : ℕ) (dest : List Byte) {id subid : ℕ} (hid : id ≤ 9999)
    (hsub : subid ≤ 999) :
    jobid storageSize dest id subid =
      dest ++ 45 :: (decimal id ++ if 0 < subid then 46 :: decimal subid else []) := by
  have hid : (decimal id).length ≤ 4 := length_decimal_le (by decide) (by omega)
  have hsub : (decimal subid).length ≤ 3 := length_decimal_le (by decide) (by omega)
  unfold jobid
  dsimp only
  rw [List.take_of_length_le (l := dest ++ 45 :: decimal id)
    (by rw [List.length_append, List.length_cons]; omega)]
  split_ifs
  · rw [List.take_of_length_le (by
      rw [List.length_append, List.length_append, List.length_cons, List.length_cons]
      omega), List.append_assoc, List.cons_append]
  · rw [List.append_nil]

/-- Where a hyphen of the name itself is taken for its end. -/
theorem endsName_append (b p : List Byte) :
    endsName (b ++ 45 :: p) = true ↔ b.head? = some 42 ∨ (b.dropWhile isdigit).head? = some 46 := by
  have hhead : (b ++ 45 :: p).head? = some 42 ↔ b.head? = some 42 := by
    cases b with
    | nil => simp
    | cons c b => exact Iff.rfl
  have hrest : ((b ++ 45 :: p).dropWhile isdigit).head? = ((b.dropWhile isdigit) ++ [45]).head? := by
    rw [List.dropWhile_append]
    cases hb : b.dropWhile isdigit with
    | nil => rfl
    | cons c s => rfl
  unfold endsName
  simp only [Bool.or_eq_true, decide_eq_true_eq, hhead, hrest]
  cases hb : b.dropWhile isdigit with
  | nil => simp
  | cons c s => simp

/-- A hyphen in the name is passed over if the name is not misread there. -/
theorem destLength_eq {dest p : List Byte} (hdest : ¬ Misread dest) (hp : endsName p = true) :
    destLength (dest ++ 45 :: p) = dest.length := by
  induction dest with
  | nil =>
    show (if _ then _ else _) = 0
    rw [if_pos ⟨rfl, hp⟩]
  | cons c dest ih =>
    have ih := ih fun ⟨a, b, hab, hb⟩ => hdest ⟨c :: a, b, by rw [hab, List.cons_append], hb⟩
    rw [List.cons_append, destLength, if_neg, ih, List.length_cons]
    rintro ⟨rfl, hends⟩
    apply hdest
    exact ⟨[], dest, rfl, (endsName_append dest p).1 hends⟩

/-- The number or numbers behind the name. -/
def shown (id subid : ℕ) : List Byte := decimal id ++ if 0 < subid then 46 :: decimal subid else []

theorem shown_tail (subid : ℕ) :
    ∀ c ∈ (if 0 < subid then 46 :: decimal subid else []).head?, isdigit c = false := by
  intro c hc
  split_ifs at hc
  · cases hc
    rfl
  · cases hc

theorem endsName_shown (id subid : ℕ) : endsName (shown id subid) = true := by
  unfold endsName shown
  rw [(decimal_span id (shown_tail subid)).2]
  split_ifs <;> simp

theorem scanId_shown {id : ℕ} (hid : id ≤ 9999) (subid : ℕ) :
    scanId (shown id subid) =
      (BitVec.ofNat 16 id, if 0 < subid then 46 :: decimal subid else []) := by
  have hstar : (shown id subid).head? ≠ some 42 := by
    obtain ⟨c, d, hd⟩ := List.exists_cons_of_ne_nil (decimal_ne_nil id)
    have hdigit : isdigit c = true := isdigit_decimal (n := id) (by simp [hd])
    rintro h
    unfold shown at h
    rw [hd] at h
    cases h
    cases hdigit
  unfold scanId
  rw [if_neg hstar]
  unfold shown
  rw [atoi16_decimal hid (shown_tail subid), (decimal_span id (shown_tail subid)).2]

theorem scanSubid_shown {subid : ℕ} (hsub : subid ≤ 9999) :
    scanSubid (if 0 < subid then 46 :: decimal subid else []) =
      (if 0 < subid then BitVec.ofNat 16 subid else WILDCARD_SUBID, []) := by
  split_ifs
  · have hatoi := atoi16_decimal hsub (s := []) nofun
    have hdrop := (decimal_span subid (s := []) nofun).2
    rw [List.append_nil] at hatoi hdrop
    show (atoi16 (decimal subid), (decimal subid).dropWhile isdigit) = _
    rw [hatoi, hdrop]
  · rfl

/-- The numbers that `jobid()` has written are read back. -/
theorem parseJobname_jobid (aliases : List Byte → Option (List Byte)) (storageSize : ℕ)
    {dest : List Byte} (hne : dest ≠ []) (hdest : ¬ Misread dest) {id subid : ℕ} (hid : id ≤ 9999)
    (hsub : subid ≤ 999) :
    parseJobname aliases (jobid storageSize dest id subid) = some
      { destname := parseDestname aliases dest true
        id := BitVec.ofNat 16 id
        subid := if 0 < subid then BitVec.ofNat 16 subid else WILDCARD_SUBID } := by
  have hlen := destLength_eq hdest (endsName_shown id subid)
  rw [jobid_eq storageSize dest hid hsub]
  show parseJobname aliases (dest ++ 45 :: shown id subid) = _
  unfold parseJobname
  rw [hlen, if_neg (mt List.length_eq_zero_iff.1 hne), List.take_left, List.drop_left]
  dsimp only
  rw [scanId_shown hid]
  dsimp only
  rw [scanSubid_shown (by omega)]
  rfl

theorem hyphen_notMem_of_dropWhile {ptr : List Byte} (h : 45 ∉ ptr.dropWhile isdigit) : 45 ∉ ptr := by
  rw [← List.takeWhile_append_dropWhile (p := isdigit) (l := ptr), List.mem_append, not_or]
  refine ⟨fun hm => ?_, h⟩
  cases List.mem_takeWhile_imp hm

theorem scanId_hyphen {ptr : List Byte} (h : 45 ∉ (scanId ptr).2) : 45 ∉ ptr := by
  unfold scanId at h
  split_ifs at h with hstar
  · cases ptr with
    | nil => exact List.not_mem_nil
    | cons c ptr =>
      cases hstar
      exact List.not_mem_cons_of_ne_of_not_mem (by decide) h
  · exact hyphen_notMem_of_dropWhile h

theorem scanSubid_hyphen {ptr : List Byte} (h : 45 ∉ (scanSubid ptr).2) : 45 ∉ ptr := by
  unfold scanSubid at h
  split_ifs at h with hdot
  · cases ptr with
    | nil => exact List.not_mem_nil
    | cons c ptr =>
      cases hdot
      exact List.not_mem_cons_of_ne_of_not_mem (by decide) (hyphen_notMem_of_dropWhile h)
  · exact h

/-- Where the name ends before the end of the text, a hyphen stands there. -/
theorem drop_destLength (s : List Byte) :
    s.drop (destLength s) = [] ∨ ∃ p, s.drop (destLength s) = 45 :: p := by
  induction s with
  | nil => exact .inl rfl
  | cons c s ih =>
    rw [destLength]
    split_ifs with h
    · exact .inr ⟨s, by rw [List.drop_zero, h.1]⟩
    · exact ih

/-- What has been written as the name is what stands before the last hyphen, unless it is all of the
text. -/
theorem parseJobname_spelling {aliases : List Byte → Option (List Byte)} {s : List Byte}
    {job : Jobname} (h : parseJobname aliases s = some job) :
    (job.id = WILDCARD_JOBID ∧ job.destname = parseDestname aliases s true) ∨
      ∃ w p, s = w ++ 45 :: p ∧ 45 ∉ p ∧ job.destname = parseDestname aliases w true := by
  unfold parseJobname at h
  dsimp only at h
  by_cases hlen : destLength s = 0
  · rw [if_pos hlen] at h
    cases h
  rw [if_neg hlen] at h
  rcases drop_destLength s with hdrop | ⟨p, hdrop⟩
  · left
    have htake : s.take (destLength s) = s := List.take_of_length_le (List.drop_eq_nil_iff.1 hdrop)
    rw [hdrop, htake] at h
    cases h
    exact ⟨rfl, rfl⟩
  · right
    rw [hdrop] at h
    dsimp only at h
    split_ifs at h with hptr
    cases h
    refine ⟨s.take (destLength s), p, ?_, ?_, rfl⟩
    · rw [← hdrop, List.take_append_drop]
    · apply scanId_hyphen
      apply scanSubid_hyphen
      rw [not_not.1 hptr]
      exact List.not_mem_nil

end Ppr
