import Ppr.Lib.Loops
import Ppr.Libgu.Sscanf
import Ppr.Libgu.Wildmat

/-!
# Access control lists

`user_acl_allows()` of `acl.c`, `username_match()`, and `authorization_acl()` of `ppr_main.c`.  A
string ends where the list of its characters does.  The loop over the names has `late` for "not ended
yet".
-/

open Loops

namespace Ppr.Acl

/-! ## Users -/

/-- `localhost_remove()`. -/
def localhostRemove (host : Option (List Byte)) : Option (List Byte) :=
  host.filter fun h => h ≠ ascii "localhost" ∧ h ≠ ascii "127.0.0.1"

/-- What stands before the first '@', and what follows it. -/
def splitAt (s : List Byte) : List Byte × Option (List Byte) :=
  match s.dropWhile (· ≠ 64) with
  | [] => (s, none)
  | _ :: host => (s.takeWhile (· ≠ 64), some host)

/-- `username_match()`. -/
def usernameMatch (username pattern : List Byte) : Except WildRead Bool := do
  if username = pattern then return true
  let (user, atHost) := splitAt username
  let userHost := localhostRemove atHost
  let (patternUser, patternAtHost) := splitAt pattern
  let patternHost := localhostRemove patternAtHost
  if !(← guWildmat user patternUser) then return false
  match userHost, patternHost with
  | some _, none => return false
  | some host, some p => guWildmat host p
  | none, some p => return p = ascii "*"
  | none, none => return true

/-- The names that are substituted in `config.h`, and the files of `ACLDIR`: the content of
`acl.allow`, if it can be opened. -/
structure System where
  USER_PPR : List Byte
  USER_PPRWWW : List Byte
  allow : List Byte → Option (List Byte)

def System.internalList (sys : System) : List (List Byte) :=
  [ascii "root", sys.USER_PPR, sys.USER_PPRWWW]

def isComment (line : List Byte) : Bool := line.head? = some 35 || line.head? = some 59

/-- The lines of the file, one after the other. -/
def anyLine (user : List Byte) : List (List Byte) → Except WildRead Bool
  | [] => .ok false
  | line :: lines =>
    if isComment line then anyLine user lines
    else do
      if ← usernameMatch user line then return true
      anyLine user lines

/-- `user_acl_allows()`. -/
def userAclAllows (sys : System) (user acl : List Byte) : Except WildRead Bool :=
  if user ∈ sys.internalList then .ok true
  else
    match sys.allow acl with
    | none => .ok false
    | some content => anyLine user ((rawLines content).map chop)

/-- The name of the user and that of the host are matched separately. -/
theorem usernameMatch_remote {user u h : List Byte} (huser : splitAt user = (u, some h))
    (hlocal : localhostRemove (some h) = some h) {pattern pu ph : List Byte} (hne : user ≠ pattern)
    (hpattern : splitAt pattern = (pu, some ph)) (hph : localhostRemove (some ph) = some ph) :
    usernameMatch user pattern = (do
      if !(← guWildmat u pu) then return false
      guWildmat h ph) := by
  unfold usernameMatch
  rw [if_neg hne, huser, hpattern]
  dsimp only
  rw [hlocal, hph]

/-- A user without a host matches a pattern without one, or with any host. -/
theorem usernameMatch_here {user : List Byte} (huser : 64 ∉ user) {pattern : List Byte}
    (hne : user ≠ pattern) :
    usernameMatch user pattern = (do
      if !(← guWildmat user (splitAt pattern).1) then return false
      match localhostRemove (splitAt pattern).2 with
      | some p => return p = ascii "*"
      | none => return true) := by
  have hsplit : splitAt user = (user, none) := by
    unfold splitAt
    rw [List.dropWhile_eq_nil_iff.2]
    intro c hc
    simpa using fun h : c = 64 => huser (h ▸ hc)
  unfold usernameMatch
  rw [if_neg hne, hsplit]
  dsimp only
  have hnone : localhostRemove none = none := rfl
  rw [hnone]
  cases localhostRemove (splitAt pattern).2 <;> rfl

/-- Some line that is no comment matches the user. -/
def Listed (user : List Byte) (lines : List (List Byte)) : Prop :=
  ∃ line ∈ lines, isComment line = false ∧ usernameMatch user line = .ok true

theorem anyLine_iff {user : List Byte} {lines : List (List Byte)}
    (hread : ∀ line ∈ lines, isComment line = false → ∃ b, usernameMatch user line = .ok b) :
    anyLine user lines = .ok true ↔ Listed user lines := by
  induction lines with
  | nil => simp [anyLine, Listed]
  | cons line lines ih =>
    have ih := ih fun l hl => hread l (List.mem_cons_of_mem line hl)
    unfold anyLine
    by_cases hcomment : isComment line = true
    · rw [if_pos hcomment, ih]
      simp [Listed, hcomment]
    · obtain ⟨b, hb⟩ := hread line List.mem_cons_self (by simpa using hcomment)
      rw [if_neg hcomment, hb]
      cases b with
      | true => exact iff_of_true rfl ⟨line, List.mem_cons_self, by simpa using hcomment, hb⟩
      | false =>
        refine Iff.trans ?_ (ih.trans ?_)
        · exact Iff.rfl
        · simp [Listed, hb]

/-- Who may print is said by the lines of the file; the users that the system needs always may. -/
theorem userAclAllows_iff (sys : System) (user acl : List Byte)
    (hread : ∀ content ∈ sys.allow acl, ∀ line ∈ (rawLines content).map chop,
      isComment line = false → ∃ b, usernameMatch user line = .ok b) :
    userAclAllows sys user acl = .ok true ↔ user ∈ sys.internalList ∨
      ∃ content ∈ sys.allow acl, Listed user ((rawLines content).map chop) := by
  unfold userAclAllows
  by_cases huser : user ∈ sys.internalList
  · simp [huser]
  · rw [if_neg huser]
    cases hacl : sys.allow acl with
    | none => simp [huser]
    | some content =>
      simp only [huser, false_or, Option.mem_def, Option.some.injEq, exists_eq_left']
      exact anyLine_iff (hread content hacl)

/-! ## The lists of a destination -/

/-- `strtok(s, " ")`: the first token, and the string with a NUL behind it. -/
def strtok (s : List Byte) : Option (List Byte × List Byte) :=
  match s.dropWhile (· = 32) with
  | [] => none
  | rest => some (rest.takeWhile (· ≠ 32), s.takeWhile (· = 32) ++ rest.takeWhile (· ≠ 32))

/-- The variables of the loop; `ptr` points to the start of the copy in every round. -/
structure AclLoop where
  aclListCopy : List Byte
  result : Bool := false

/-- Why the loop does not return. -/
inductive Stuck where
  | wildRead
  | late
  deriving DecidableEq

/-- A round of `while((substr = strtok(ptr, " ")))`; it sends the name that it looks at. -/
def aclRound (sys : System) (user : List Byte) (s : AclLoop) :
    Except Stuck (Turn (List Byte) AclLoop) :=
  match strtok s.aclListCopy with
  | none => .ok (.done s)
  | some (substr, copy) =>
    match userAclAllows sys user substr with
    | .error _ => .error .wildRead
    | .ok allows => .ok (.more [substr] { aclListCopy := copy, result := s.result || allows })

/-- `authorization_acl()`, with `fuel` rounds: whether the job goes on. -/
def authorizationAcl (sys : System) (user : List Byte) (acls : Option (List Byte)) (fuel : ℕ) :
    Except Stuck Bool :=
  match acls with
  | none => .ok true
  | some list => do
    let (_, s) ← loop .late (aclRound sys user) fuel { aclListCopy := list }
    return s.result

/-- The names in a list with spaces between them. -/
def aclNames (list : List Byte) : List (List Byte) := (list.splitOn 32).filter (· ≠ [])

/-- The user gets through exactly if a list with one of the names allows it. -/
def Decides (sys : System) (user list : List Byte) : Prop :=
  ∃ fuel b, authorizationAcl sys user (some list) fuel = .ok b ∧
    (b = true ↔ ∃ acl ∈ aclNames list, userAclAllows sys user acl = .ok true)

/-- The first token, once it is found, is found again. -/
theorem strtok_again {s token copy : List Byte} (h : strtok s = some (token, copy)) :
    strtok copy = some (token, copy) := by
  unfold strtok at h
  cases hrest : s.dropWhile (· = 32) with
  | nil =>
    rw [hrest] at h
    cases h
  | cons c rest =>
    rw [hrest] at h
    obtain ⟨rfl, rfl⟩ := Prod.mk.inj (Option.some.inj h)
    have hc : c ≠ 32 := by
      have hhead := List.head?_dropWhile_not (fun c : Byte => decide (c = 32)) s
      rw [hrest] at hhead
      simpa using hhead
    have hword : (c :: rest).takeWhile (· ≠ 32) = c :: rest.takeWhile (· ≠ 32) :=
      List.takeWhile_cons_of_pos (by simpa using hc)
    have hspaces : ∀ d ∈ s.takeWhile (· = 32), (decide (d = 32)) = true :=
      fun d hd => List.mem_takeWhile_imp (p := fun d => decide (d = 32)) hd
    have hagain : (c :: rest.takeWhile (· ≠ 32)).takeWhile (· ≠ 32) = c :: rest.takeWhile (· ≠ 32) := by
      rw [List.takeWhile_eq_self_iff]
      rw [← hword]
      exact fun d hd => List.mem_takeWhile_imp (p := fun d => decide (d ≠ 32)) hd
    unfold strtok
    rw [hword, List.dropWhile_append_of_pos hspaces, List.takeWhile_append_of_pos hspaces,
      List.dropWhile_cons_of_neg (by simpa using hc), List.takeWhile_cons_of_neg (by simpa using hc)]
    dsimp only
    rw [hagain, List.append_nil]

theorem aclNames_eq_nil {s : List Byte} : aclNames s = [] ↔ ∀ c ∈ s, c = 32 := by
  unfold aclNames
  show ((s.splitOnP (· == 32)).filter (· ≠ [])) = [] ↔ _
  induction s with
  | nil => simp
  | cons c s ih =>
    rw [List.splitOnP_cons_eq_if_modifyHead]
    by_cases hc : c = 32
    · rw [if_pos (by simpa using hc), List.filter_cons_of_neg (by simp), ih]
      simp [hc]
    · obtain ⟨w, ws, hw⟩ := List.exists_cons_of_ne_nil (List.splitOnP_ne_nil (· == 32) s)
      rw [if_neg (by simpa using hc), hw, List.modifyHead_cons,
        List.filter_cons_of_pos (by simp)]
      exact iff_of_false (List.cons_ne_nil _ _) fun hall => hc (hall c List.mem_cons_self)

theorem strtok_eq_none {s : List Byte} : strtok s = none ↔ aclNames s = [] := by
  rw [aclNames_eq_nil]
  unfold strtok
  cases hrest : s.dropWhile (· = 32) with
  | nil => simpa using List.dropWhile_eq_nil_iff.1 hrest
  | cons c rest =>
    refine iff_of_false nofun fun hall => ?_
    have hnil : s.dropWhile (· = 32) = [] := List.dropWhile_eq_nil_iff.2 (by simpa using hall)
    rw [hnil] at hrest
    cases hrest

/-- The string is cut behind the first name in the first round, and every other round begins at its
start again. -/
theorem not_decides {sys : System} {user list : List Byte} (hnames : aclNames list ≠ []) :
    ¬ Decides sys user list := by
  rintro ⟨fuel, b, hrun, -⟩
  obtain ⟨⟨out, s⟩, hloop, -⟩ := Outcome.bind_eq_ok hrun
  refine loop_endless (I := fun s => strtok s.aclListCopy ≠ none) ?_ (mt strtok_eq_none.1 hnames) fuel
    (out, s) hloop
  intro s r htoken hround
  obtain ⟨⟨token, copy⟩, hs⟩ := Option.ne_none_iff_exists'.1 htoken
  unfold aclRound at hround
  rw [hs] at hround
  dsimp only at hround
  cases hallows : userAclAllows sys user token with
  | error e =>
    rw [hallows] at hround
    cases hround
  | ok allows =>
    rw [hallows] at hround
    refine ⟨_, _, (Except.ok.inj hround).symm, ?_⟩
    rw [strtok_again hs]
    exact Option.some_ne_none _

/-- The function returns, with the right answer, only for a list without names. -/
theorem authorizationAcl_decides_iff (sys : System) (user list : List Byte) :
    Decides sys user list ↔ aclNames list = [] := by
  constructor
  · intro h
    by_contra hnames
    exact not_decides hnames h
  · intro hnames
    have hdone : aclRound sys user { aclListCopy := list } = .ok (.done { aclListCopy := list }) := by
      unfold aclRound
      rw [strtok_eq_none.2 hnames]
    refine ⟨1, false, ?_, by simp [hnames]⟩
    unfold authorizationAcl
    dsimp only
    rw [loop_done hdone]
    rfl

/-- One list, and a user whom it allows. -/
theorem not_decides_staff :
    let sys : System :=
      { USER_PPR := ascii "ppr"
        USER_PPRWWW := ascii "pprwww"
        allow := fun acl => if acl = ascii "staff" then some (ascii "# staff\nali*\n") else none }
    userAclAllows sys (ascii "alice") (ascii "staff") = .ok true ∧
      ¬ Decides sys (ascii "alice") (ascii "staff") :=
  ⟨by decide +kernel, not_decides (by decide +kernel)⟩

end Ppr.Acl
