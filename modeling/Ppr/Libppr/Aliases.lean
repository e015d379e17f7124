import Ppr.Libppr.QueueInfo
import Ppr.Pprdrv.Precedence

/-!
# Aliases

What queueinfo answers about an alias and about the queue that it is for.  One loader fills in the
object for both, at another depth.  `do_group()` takes its "PassThru:" and "Switchset:" lines at every
depth, and the state files are looked for under the name of the object.
-/

namespace Ppr.Queueinfo

open Pprdrv (lastOf)

theorem lastOf_none {α β : Type} (lines : List α) : lastOf (fun _ => none : α → Option β) lines = none :=
  List.findSome?_eq_none_iff.2 fun _ _ => rfl

theorem lastOf_cons {α β : Type} (f : α → Option β) (l : α) (lines : List α) :
    lastOf f (l :: lines) = (lastOf f lines).or (f l) := by
  simp [lastOf, List.findSome?_append]

theorem lastOf_append {α β : Type} (f : α → Option β) (lines lines' : List α) :
    lastOf f (lines ++ lines') = (lastOf f lines').or (lastOf f lines) := by
  simp [lastOf, List.findSome?_append]

/-! ## What the answers are taken from -/

/-- A printer without its location, which `do_printer()` takes at depth 0 only, and its state. -/
def PrinterInfo.described (pip : PrinterInfo) : PrinterInfo :=
  { pip with location := none, spoolState := {} }

theorem PrinterInfo.ppd_described (pip : PrinterInfo) : pip.described.ppd = pip.ppd := rfl

theorem PrinterInfo.described_line (pip : PrinterInfo) (depth : ℕ) (l : PrinterLine) :
    (pip.line depth l).described = pip.described.line 1 l := by
  cases l with
  | location p =>
    rw [PrinterInfo.line]
    split_ifs <;> rfl
  | ppdOpt p =>
    rw [PrinterInfo.line, PrinterInfo.line]
    split <;> rfl
  | _ => rfl

theorem PrinterInfo.described_foldl (depth : ℕ) (lines : List PrinterLine) (pip : PrinterInfo) :
    (lines.foldl (·.line depth) pip).described = lines.foldl (·.line 1) pip.described := by
  induction lines generalizing pip with
  | nil => rfl
  | cons l lines ih => rw [List.foldl_cons, List.foldl_cons, ih, described_line]

theorem described_doPrinterPpd (files : PpdFiles) (d : Decoder) (unset : Unset) (pip : PrinterInfo) :
    (doPrinterPpd files d unset pip).map PrinterInfo.described =
      doPrinterPpd files d unset pip.described := by
  have hfile : pip.described.ppdFile = pip.ppdFile := rfl
  rw [doPrinterPpd, doPrinterPpd, hfile]
  cases hp : pip.ppdFile with
  | none => rfl
  | some ppdFile =>
    dsimp only
    rw [Option.map_map]
    congr 1
    funext ⟨ppd, whole⟩
    cases whole <;> simp [PrinterInfo.described, PrinterInfo.defaults, PrinterInfo.chosenCodes, hp]

theorem described_loadPrinter (files : PpdFiles) (d : Decoder) (unset : Unset) (name : List Byte)
    (depth : ℕ) (text : List Byte) (spoolState : PrinterSpoolState) :
    (loadPrinter files d unset name depth text spoolState).map PrinterInfo.described =
      (loadPrinter files d unset name 1 text {}).map PrinterInfo.described := by
  have along : ∀ depth spoolState,
      (loadPrinter files d unset name depth text spoolState).map PrinterInfo.described =
        doPrinterPpd files d unset
          ((printerLines text).foldl (·.line 1) { name := name, ppdFile := unset.ppdFile }) := by
    intro depth spoolState
    change Option.map _ (Option.map _ _) = _
    rw [Option.map_map]
    change Option.map PrinterInfo.described _ = _
    rw [described_doPrinterPpd, PrinterInfo.described_foldl]
    rfl
  rw [along, along]

namespace QueueInfo

/-- What there is of a queue when it comes to its printers. -/
def described (qip : QueueInfo) : QueueInfo where
  name := []
  printers := qip.printers.map (·.described)
  commonFontsFound := qip.commonFontsFound
  fontlist := qip.fontlist
  chargeExists := qip.chargeExists

@[simp]
theorem described_described (qip : QueueInfo) : qip.described.described = qip.described := by
  simp only [described, List.map_map]
  rfl

theorem described_printerLine (qip : QueueInfo) (depth : ℕ) (l : PrinterLine) :
    (printerLine depth qip l).described = printerLine 1 qip.described l := by
  cases l with
  | comment p =>
    rw [printerLine]
    split_ifs <;> rfl
  | passThru p =>
    rw [printerLine]
    split_ifs <;> rfl
  | switchset p =>
    rw [printerLine]
    split_ifs <;> rfl
  | _ => rfl

theorem described_foldl (depth : ℕ) (lines : List PrinterLine) (qip : QueueInfo) :
    (lines.foldl (printerLine depth) qip).described = lines.foldl (printerLine 1) qip.described := by
  induction lines generalizing qip with
  | nil => rfl
  | cons l lines ih => rw [List.foldl_cons, List.foldl_cons, ih, described_printerLine]

/-- A queue with another printer. -/
def push (qip : QueueInfo) (pip : PrinterInfo) : QueueInfo :=
  { qip with printers := qip.printers ++ [pip] }

theorem described_push (qip : QueueInfo) (pip : PrinterInfo) :
    (qip.push pip).described = qip.described.push pip.described := by
  simp [described, push]

variable (env : Setting)

theorem doPrinter_some {name text : List Byte} (h : env.files.printers name = some text)
    (qip : QueueInfo) (depth : ℕ) :
    qip.doPrinter env name depth =
      match loadPrinter env.files.ppd env.decoder
          (env.unset ((printerLines text).foldl (printerLine depth) qip).printers.length) name depth text
          (printerSpoolStateLoad (env.files.printerState
            ((printerLines text).foldl (printerLine depth) qip).name)) with
      | none => .error .endless
      | some pip => .ok (some (((printerLines text).foldl (printerLine depth) qip).push pip)) := by
  rw [doPrinter, h]
  rfl

theorem described_doPrinter (qip : QueueInfo) (name : List Byte) (depth : ℕ) :
    (qip.doPrinter env name depth).map (Option.map described) =
      (qip.described.doPrinter env name 1).map (Option.map described) := by
  cases h : env.files.printers name with
  | none => rw [doPrinter, h, doPrinter, h]
  | some text =>
    have hfold := described_foldl depth (printerLines text) qip
    have hlength : ((printerLines text).foldl (printerLine 1) qip.described).printers.length =
        ((printerLines text).foldl (printerLine depth) qip).printers.length := by
      rw [← hfold]
      exact List.length_map _
    rw [doPrinter_some env h, doPrinter_some env h, hlength]
    generalize env.unset _ = unset
    generalize printerSpoolStateLoad _ = state
    generalize printerSpoolStateLoad _ = state'
    have hload := described_loadPrinter env.files.ppd env.decoder unset name depth text state
    rw [← described_loadPrinter env.files.ppd env.decoder unset name 1 text state'] at hload
    cases hp : loadPrinter env.files.ppd env.decoder unset name depth text state with
    | none =>
      rw [hp] at hload
      rw [Option.map_eq_none_iff.1 hload.symm]
    | some pip =>
      rw [hp] at hload
      obtain ⟨pip', hp', hpip⟩ := Option.map_eq_some_iff.1 hload.symm
      rw [hp']
      change Except.ok (some (push _ pip).described) = Except.ok (some (push _ pip').described)
      rw [described_push, described_push, hpip, hfold, ← hfold, described_described]

variable {q q' : QueueInfo}

theorem described_doPrinter_congr (h : q.described = q'.described) (name : List Byte) (depth depth' : ℕ) :
    (q.doPrinter env name depth).map (Option.map described) =
      (q'.doPrinter env name depth').map (Option.map described) := by
  rw [described_doPrinter, h, ← described_doPrinter]

theorem described_groupLine (h : q.described = q'.described) (l : QueueLine) (depth depth' : ℕ) :
    (groupLine env depth q l).map described = (groupLine env depth' q' l).map described := by
  cases l with
  | comment p =>
    have kept : ∀ (q : QueueInfo) (depth : ℕ),
        (groupLine env depth q (.comment p)).map described = .ok q.described := by
      intro q depth
      rw [groupLine]
      split_ifs <;> rfl
    rw [kept, kept, h]
  | printer p =>
    have hp := described_doPrinter_congr env h p (depth + 1) (depth' + 1)
    rw [groupLine, groupLine]
    generalize q.doPrinter env p (depth + 1) = o at hp ⊢
    generalize q'.doPrinter env p (depth' + 1) = o' at hp ⊢
    match o, o', hp with
    | .error e, .error e', hp => exact congrArg Except.error (Except.error.inj hp)
    | .ok none, .ok none, _ => exact congrArg Except.ok h
    | .ok (some r), .ok (some r'), hp => exact congrArg Except.ok (Option.some.inj (Except.ok.inj hp))
  | forWhat p => exact congrArg Except.ok h
  | passThru p => exact congrArg Except.ok h
  | switchset p => exact congrArg Except.ok h

theorem described_groupLines (lines : List QueueLine) (h : q.described = q'.described)
    (depth depth' : ℕ) :
    (lines.foldlM (groupLine env depth) q).map described =
      (lines.foldlM (groupLine env depth') q').map described := by
  induction lines generalizing q q' with
  | nil => exact congrArg Except.ok h
  | cons l lines ih =>
    have hl := described_groupLine env h l depth depth'
    rw [List.foldlM_cons, List.foldlM_cons]
    generalize groupLine env depth q l = o at hl ⊢
    generalize groupLine env depth' q' l = o' at hl ⊢
    match o, o', hl with
    | .error e, .error e', hl => exact congrArg Except.error (Except.error.inj hl)
    | .ok r, .ok r', hl => exact ih (Except.ok.inj hl)

/-! ## What the queue has of its own -/

variable {env}

/-- What there is of a queue besides its printers. -/
def own (qip : QueueInfo) : QueueInfo :=
  { qip with printers := [], commonFontsFound := false, fontlist := [], chargeExists := false }

theorem own_printerLine (q : QueueInfo) (depth : ℕ) (l : PrinterLine) :
    (printerLine (depth + 1) q l).own = q.own := by
  cases l <;> rfl

theorem own_foldl (q : QueueInfo) (depth : ℕ) (lines : List PrinterLine) :
    (lines.foldl (printerLine (depth + 1)) q).own = q.own := by
  induction lines generalizing q with
  | nil => rfl
  | cons l lines ih => rw [List.foldl_cons, ih, own_printerLine]

/-- A line of a printer leaves the printers, the name and the state as they are. -/
theorem printerLine_kept (q : QueueInfo) (depth : ℕ) (l : PrinterLine) :
    (printerLine depth q l).printers = q.printers ∧ (printerLine depth q l).name = q.name ∧
      (printerLine depth q l).groupSpoolState = q.groupSpoolState := by
  cases l with
  | comment p =>
    rw [printerLine]
    split_ifs <;> exact ⟨rfl, rfl, rfl⟩
  | passThru p =>
    rw [printerLine]
    split_ifs <;> exact ⟨rfl, rfl, rfl⟩
  | switchset p =>
    rw [printerLine]
    split_ifs <;> exact ⟨rfl, rfl, rfl⟩
  | _ => exact ⟨rfl, rfl, rfl⟩

theorem foldl_kept (q : QueueInfo) (depth : ℕ) (lines : List PrinterLine) :
    (lines.foldl (printerLine depth) q).printers = q.printers ∧
      (lines.foldl (printerLine depth) q).name = q.name ∧
      (lines.foldl (printerLine depth) q).groupSpoolState = q.groupSpoolState := by
  induction lines generalizing q with
  | nil => exact ⟨rfl, rfl, rfl⟩
  | cons l lines ih =>
    obtain ⟨hprinters, hname, hstate⟩ := printerLine_kept q depth l
    rw [List.foldl_cons, ← hprinters, ← hname, ← hstate]
    exact ih _

/-- A printer that is loaded, with its state from the file that has the name of the queue. -/
theorem doPrinter_ok {name : List Byte} {depth : ℕ} (h : q.doPrinter env name depth = .ok (some q')) :
    (∃ pip, q'.printers = q.printers ++ [pip] ∧
      pip.spoolState = printerSpoolStateLoad (env.files.printerState q.name)) ∧
      q'.name = q.name ∧ q'.groupSpoolState = q.groupSpoolState := by
  cases hn : env.files.printers name with
  | none =>
    rw [doPrinter, hn] at h
    cases h
  | some text =>
    obtain ⟨hprinters, hname, hstate⟩ := foldl_kept q depth (printerLines text)
    rw [doPrinter_some env hn, hprinters, hname] at h
    split at h
    · cases h
    · rename_i pip hpip
      cases h
      obtain ⟨pip', -, rfl⟩ := Option.map_eq_some_iff.1 hpip
      exact ⟨⟨_, congrArg (· ++ _) hprinters, rfl⟩, hname, hstate⟩

/-- Below the queue itself, nothing that is its own is changed. -/
theorem own_doPrinter {name : List Byte} {depth : ℕ}
    (h : q.doPrinter env name (depth + 1) = .ok (some q')) : q'.own = q.own := by
  cases hn : env.files.printers name with
  | none =>
    rw [doPrinter, hn] at h
    cases h
  | some text =>
    rw [doPrinter_some env hn] at h
    split at h
    · cases h
    · cases h
      exact own_foldl q depth (printerLines text)

end QueueInfo

/-! ## Settings -/

/-- Whether a switchset has the transparent hack. -/
def hasTransparent (switchset : List Byte) : Bool :=
  (fields (· = 124) switchset).any fun p => p = ascii "Htransparent" || p = ascii "-hack=transparent"

/-- Whether PostScript is passed through. -/
def hasPostscript (list : List Byte) : Bool := (fields (· = 124) list).any (· = ascii "postscript")

namespace QueueInfo.QueueLine

def comment? : QueueLine → Option (List Byte)
  | comment p => some p
  | _ => none

def transparent? : QueueLine → Option Bool
  | switchset p => some (hasTransparent p)
  | _ => none

def postscript? : QueueLine → Option Bool
  | passThru p => some (hasPostscript p)
  | _ => none

def forWhat? : QueueLine → Option (List Byte)
  | forWhat p => some p
  | _ => none

end QueueInfo.QueueLine

namespace QueueInfo

open QueueLine (comment? transparent? postscript? forWhat?)

variable {env : Setting} {q q' q'' : QueueInfo}

/-- The last of the lines that say something count. -/
structure Settled (said : QueueLine → Option (List Byte)) (lines : List QueueLine)
    (q q' : QueueInfo) : Prop where
  name : q'.name = q.name
  comment : q'.comment = (lastOf said lines).or q.comment
  transparentMode : q'.transparentMode = (lastOf transparent? lines).getD q.transparentMode
  psPassThru : q'.psPassThru = (lastOf postscript? lines).getD q.psPassThru

theorem Settled.nil (said : QueueLine → Option (List Byte)) (q : QueueInfo) : Settled said [] q q :=
  ⟨rfl, rfl, rfl, rfl⟩

theorem Settled.cons {said : QueueLine → Option (List Byte)} {l : QueueLine} {lines : List QueueLine}
    (h : Settled said lines q' q'') (hname : q'.name = q.name)
    (hcomment : q'.comment = (said l).or q.comment)
    (htransparent : q'.transparentMode = (transparent? l).getD q.transparentMode)
    (hpostscript : q'.psPassThru = (postscript? l).getD q.psPassThru) :
    Settled said (l :: lines) q q'' where
  name := h.name.trans hname
  comment := by rw [h.comment, hcomment, lastOf_cons, Option.or_assoc]
  transparentMode := by
    rw [h.transparentMode, htransparent, lastOf_cons]
    cases lastOf transparent? lines <;> rfl
  psPassThru := by
    rw [h.psPassThru, hpostscript, lastOf_cons]
    cases lastOf postscript? lines <;> rfl

/-- What the lines of a group change that it is not the queue itself. -/
theorem groupLines_settled (lines : List QueueLine) (depth : ℕ)
    (h : lines.foldlM (groupLine env (depth + 1)) q = .ok q') :
    Settled (fun _ => none) lines q q' := by
  induction lines generalizing q with
  | nil =>
    cases h
    exact .nil _ _
  | cons l lines ih =>
    rw [List.foldlM_cons] at h
    obtain ⟨r, hl, h⟩ := Outcome.bind_eq_ok h
    cases l with
    | printer p =>
      rw [groupLine] at hl
      obtain ⟨o, ho, hl⟩ := Outcome.bind_eq_ok hl
      cases hl
      cases o with
      | none => exact (ih h).cons rfl rfl rfl rfl
      | some r =>
        have hown := own_doPrinter ho
        exact (ih h).cons (congrArg (·.name) hown :) (congrArg (·.comment) hown :)
          (congrArg (·.transparentMode) hown :) (congrArg (·.psPassThru) hown :)
    | _ =>
      cases hl
      exact (ih h).cons rfl rfl rfl rfl

/-! ## The state -/

/-- The state that queries are answered from. -/
def stateOf (qip : QueueInfo) : Option (GroupSpoolState ⊕ PrinterSpoolState) :=
  match qip.groupSpoolState with
  | some state => some (.inl state)
  | none => qip.printers.head?.map fun pip => .inr pip.spoolState

theorem stateQuery_eq {α : Type} (qip : QueueInfo) (group : GroupSpoolState → Except Unanswered α)
    (printer : PrinterSpoolState → α) :
    qip.stateQuery group printer =
      match qip.stateOf with
      | some (.inl state) => group state
      | some (.inr state) => .ok (printer state)
      | none => .error .fault := by
  unfold stateQuery stateOf
  cases qip.groupSpoolState with
  | some state => rfl
  | none => cases qip.printers <;> rfl

/-- What is read about a destination in the state file that has the name. -/
def stateUnder (env : Setting) (dest name : List Byte) : GroupSpoolState ⊕ PrinterSpoolState :=
  if (env.files.groups dest).isSome then .inl (groupSpoolStateLoad (env.files.groupState name))
  else .inr (printerSpoolStateLoad (env.files.printerState name))

/-! ## The lines of an alias -/

/-- A line without a destination does not touch what there is of one. -/
theorem aliasLines_settled (env : Setting) (lines : List QueueLine)
    (hlines : ∀ l ∈ lines, forWhat? l = none) (q : QueueInfo) :
    ∃ q', lines.foldlM (aliasLine env) q = .ok q' ∧ Settled comment? lines q q' ∧
      q'.described = q.described ∧ q'.stateOf = q.stateOf := by
  induction lines generalizing q with
  | nil => exact ⟨q, rfl, .nil _ q, rfl, rfl⟩
  | cons l lines ih =>
    have hrest := fun r : QueueInfo => ih (fun l hl => hlines l (List.mem_cons_of_mem _ hl)) r
    cases l with
    | forWhat p => exact absurd (hlines _ List.mem_cons_self) (by simp [forWhat?])
    | comment p =>
      obtain ⟨q', hfold, hs, hd, hstate⟩ := hrest { q with comment := some p }
      exact ⟨q', hfold, hs.cons rfl rfl rfl rfl, hd, hstate⟩
    | passThru p =>
      obtain ⟨q', hfold, hs, hd, hstate⟩ := hrest (q.doPassthru p)
      exact ⟨q', hfold, hs.cons rfl rfl rfl rfl, hd, hstate⟩
    | switchset p =>
      obtain ⟨q', hfold, hs, hd, hstate⟩ := hrest (q.doSwitchset p)
      exact ⟨q', hfold, hs.cons rfl rfl rfl rfl, hd, hstate⟩
    | printer p =>
      obtain ⟨q', hfold, hs, hd, hstate⟩ := hrest q
      exact ⟨q', hfold, hs.cons rfl rfl rfl rfl, hd, hstate⟩

/-- The lines of the destination, where it is a group. -/
def destLines (env : Setting) (dest : List Byte) : List QueueLine :=
  ((env.files.groups dest).map groupLines).getD []

/-- The type of the queue that an alias is for. -/
def destType (env : Setting) (dest : List Byte) : QueueinfoType :=
  if (env.files.groups dest).isSome then .group else .printer

theorem loaded_eq_ok {attempt : Except Unloaded (Option QueueInfo)} {e : Unloaded} :
    loaded attempt (.error e) = .ok q ↔ attempt = .ok (some q) := by
  match attempt with
  | .error _ => exact ⟨nofun, nofun⟩
  | .ok none => exact ⟨nofun, nofun⟩
  | .ok (some r) => exact ⟨fun h => by cases h; rfl, fun h => by cases h; rfl⟩

theorem doGroup_some {dest text : List Byte} (h : env.files.groups dest = some text) (q : QueueInfo)
    (depth : ℕ) :
    q.doGroup env dest depth =
      ((groupLines text).foldlM (groupLine env depth) q).map fun q => some
        { q with groupSpoolState := some (groupSpoolStateLoad (env.files.groupState q.name)) } := by
  rw [doGroup, h]
  dsimp only
  cases (groupLines text).foldlM (groupLine env depth) q <;> rfl

theorem doGroup_none {dest : List Byte} (h : env.files.groups dest = none) (q : QueueInfo)
    (depth : ℕ) : q.doGroup env dest depth = .ok none := by
  rw [doGroup, h]

theorem name_groupLines (lines : List QueueLine) (depth : ℕ)
    (h : lines.foldlM (groupLine env depth) q = .ok q') : q'.name = q.name := by
  refine Outcome.ensures_foldlM (I := fun r => r.name = q.name) ?_ rfl q' h
  intro r l _ hr r' hl
  cases l with
  | comment p =>
    cases hl
    split_ifs <;> exact hr
  | printer p =>
    rw [groupLine] at hl
    obtain ⟨o, ho, hl⟩ := Outcome.bind_eq_ok hl
    cases hl
    cases o with
    | none => exact hr
    | some r' => exact (doPrinter_ok ho).2.1.trans hr
  | _ =>
    cases hl
    exact hr

/-- The line with the destination, in terms of the object that is loaded for the destination. -/
theorem aliasLine_forWhat {dest : List Byte} {d : QueueInfo}
    (hd : newLoadConfig env (destType env dest) dest = .ok d)
    (hq : q.described = described { name := dest }) (hstate : q.stateOf = none) :
    ∃ q', aliasLine env q (.forWhat dest) = .ok q' ∧
      Settled (fun _ => none) (destLines env dest) q q' ∧ q'.described = d.described ∧
      q'.stateOf = some (stateUnder env dest q.name) ∧ d.stateOf = some (stateUnder env dest dest) := by
  unfold destType at hd
  unfold destLines stateUnder
  cases hg : env.files.groups dest with
  | some text =>
    rw [hg, Option.isSome_some, if_pos rfl] at hd
    have hd := loaded_eq_ok.1 hd
    rw [doGroup_some hg] at hd
    cases hr : (groupLines text).foldlM (groupLine env 0) { name := dest } with
    | error e =>
      rw [hr] at hd
      cases hd
    | ok r =>
      rw [hr] at hd
      cases hd
      have hlines := described_groupLines env (groupLines text) hq 1 0
      rw [hr] at hlines
      cases hr' : (groupLines text).foldlM (groupLine env 1) q with
      | error e =>
        rw [hr'] at hlines
        cases hlines
      | ok r' =>
        rw [hr'] at hlines
        refine
          ⟨{ r' with groupSpoolState := some (groupSpoolStateLoad (env.files.groupState r'.name)) },
            ?_, ?_, ?_, ?_, ?_⟩
        · rw [aliasLine, doGroup_some hg, hr']
          rfl
        · obtain ⟨hname, hcomment, htransparent, hpostscript⟩ := groupLines_settled _ 0 hr'
          exact ⟨hname, hcomment, htransparent, hpostscript⟩
        · exact Except.ok.inj hlines
        · rw [← name_groupLines _ _ hr']
          rfl
        · have hname : r.name = dest := name_groupLines _ _ hr
          rw [← hname]
          rfl
  | none =>
    rw [hg, Option.isSome_none, if_neg Bool.false_ne_true] at hd
    have hd := loaded_eq_ok.1 hd
    have hprinter := described_doPrinter_congr env hq dest 1 0
    rw [hd] at hprinter
    match hr : q.doPrinter env dest 1, hprinter with
    | .ok (some r), hprinter =>
      have hown := own_doPrinter hr
      obtain ⟨⟨pip, hpips, hspool⟩, hname, hgroup⟩ := doPrinter_ok hr
      obtain ⟨⟨pip', hpips', hspool'⟩, hname', hgroup'⟩ := doPrinter_ok hd
      refine ⟨r, ?_, ?_, ?_, ?_, ?_⟩
      · rw [aliasLine, doGroup_none hg]
        change (q.doPrinter env dest 1 >>= _) = _
        rw [hr]
        rfl
      · exact ⟨hname, (congrArg (·.comment) hown :), (congrArg (·.transparentMode) hown :),
          (congrArg (·.psPassThru) hown :)⟩
      · exact Option.some.inj (Except.ok.inj hprinter)
      · have hnone : q.groupSpoolState = none ∧ q.printers = [] := by
          unfold stateOf at hstate
          split at hstate
          · cases hstate
          · exact ⟨‹_›, by simpa using hstate⟩
        rw [stateOf, hgroup, hnone.1, hpips, hnone.2, ← hspool]
        rfl
      · rw [stateOf, hgroup', hpips', ← hspool']
        rfl

/-! ## Queries that the state does not answer -/

section Loops

variable {f : PrinterInfo → PrinterInfo}

theorem agreedLoop_map {attr : PrinterInfo → Option (List Byte)} (h : ∀ pip, attr (f pip) = attr pip)
    (answer : Option (List Byte)) (pips : List PrinterInfo) :
    agreedLoop attr answer (pips.map f) = agreedLoop attr answer pips := by
  induction pips generalizing answer with
  | nil => rfl
  | cons pip pips ih => simp only [List.map_cons, agreedLoop, h, ih]

variable (h : ∀ pip, (f pip).ppd = pip.ppd)
include h

theorem everyLoop_map (can : PpdInfo → Bool) (answer : Bool) (pips : List PrinterInfo) :
    everyLoop can answer (pips.map f) = everyLoop can answer pips := by
  induction pips generalizing answer with
  | nil => rfl
  | cons pip pips ih => simp only [List.map_cons, everyLoop, h, ih]

theorem lowestVersionLoop_map (lowest : Option PpdInfo) (pips : List PrinterInfo) :
    lowestVersionLoop lowest (pips.map f) = lowestVersionLoop lowest pips := by
  induction pips generalizing lowest with
  | nil => rfl
  | cons pip pips ih => simp only [List.map_cons, lowestVersionLoop, h, ih]

theorem freeVMLoop_map (lowest : ℤ) (pips : List PrinterInfo) :
    freeVMLoop lowest (pips.map f) = freeVMLoop lowest pips := by
  induction pips generalizing lowest with
  | nil => rfl
  | cons pip pips ih => simp only [List.map_cons, freeVMLoop, h, ih]

theorem resolutionLoop_map (lowest : ℤ × Option (List Byte)) (pips : List PrinterInfo) :
    resolutionLoop lowest (pips.map f) = resolutionLoop lowest pips := by
  induction pips generalizing lowest with
  | nil => rfl
  | cons pip pips ih => simp only [List.map_cons, resolutionLoop, h, ih]

theorem hasFont_map (name : List Byte) (pips : List PrinterInfo) :
    (pips.map f).all (·.hasFont name) = pips.all (·.hasFont name) := by
  rw [List.all_map]
  simp only [Function.comp_def, PrinterInfo.hasFont, h]

theorem commonFontsLoop_map (others : List PrinterInfo)
    (fonts : Chained.Table.Cursor (List Byte) Unit) :
    commonFontsLoop (others.map f) fonts = commonFontsLoop others fonts := by
  fun_induction commonFontsLoop others fonts with
  | case1 fonts hn => rw [commonFontsLoop, hn]
  | case2 fonts name fonts' hn hall ih =>
    rw [commonFontsLoop, hn]
    dsimp only
    rw [hasFont_map h, if_pos hall, ih]
  | case3 fonts name fonts' hn hall ih =>
    rw [commonFontsLoop, hn]
    dsimp only
    rw [hasFont_map h, if_neg hall, ih]

end Loops

/-- What is asked about a queue other than about its state. -/
structure SameDescription (a d : QueueInfo) : Prop where
  membername : a.membername = d.membername
  modelName : a.modelName = d.modelName
  ppdFile : a.ppdFile = d.ppdFile
  product : a.product = d.product
  shortNickName : a.shortNickName = d.shortNickName
  faxSupport : a.faxSupport = d.faxSupport
  ttRasterizer : a.ttRasterizer = d.ttRasterizer
  binaryOK : a.binaryOK = d.binaryOK
  colorDevice : a.colorDevice = d.colorDevice
  psLanguageLevel : a.psLanguageLevel = d.psLanguageLevel
  psFreeVM : a.psFreeVM = d.psFreeVM
  resolution : a.resolution = d.resolution
  fonts : a.fonts = d.fonts
  fontExists : a.fontExists = d.fontExists
  optionValue : a.optionValue = d.optionValue
  chargeExists : a.chargeExists = d.chargeExists

theorem SameDescription.of_same {a d qip : QueueInfo} (ha : SameDescription qip a)
    (hd : SameDescription qip d) : SameDescription a d where
  membername := ha.membername.symm.trans hd.membername
  modelName := ha.modelName.symm.trans hd.modelName
  ppdFile := ha.ppdFile.symm.trans hd.ppdFile
  product := ha.product.symm.trans hd.product
  shortNickName := ha.shortNickName.symm.trans hd.shortNickName
  faxSupport := ha.faxSupport.symm.trans hd.faxSupport
  ttRasterizer := ha.ttRasterizer.symm.trans hd.ttRasterizer
  binaryOK := ha.binaryOK.symm.trans hd.binaryOK
  colorDevice := ha.colorDevice.symm.trans hd.colorDevice
  psLanguageLevel := ha.psLanguageLevel.symm.trans hd.psLanguageLevel
  psFreeVM := ha.psFreeVM.symm.trans hd.psFreeVM
  resolution := ha.resolution.symm.trans hd.resolution
  fonts := ha.fonts.symm.trans hd.fonts
  fontExists := ha.fontExists.symm.trans hd.fontExists
  optionValue := ha.optionValue.symm.trans hd.optionValue
  chargeExists := ha.chargeExists.symm.trans hd.chargeExists

theorem agreed_described {attr : PrinterInfo → Option (List Byte)}
    (h : ∀ pip : PrinterInfo, attr pip.described = attr pip) (qip : QueueInfo) :
    agreed attr qip.described = agreed attr qip :=
  agreedLoop_map h none qip.printers

theorem fonts_described (qip : QueueInfo) : qip.described.fonts = qip.fonts := by
  unfold fonts findCommonFonts
  have hfound : qip.described.commonFontsFound = qip.commonFontsFound := rfl
  have hprinters : qip.described.printers = qip.printers.map PrinterInfo.described := rfl
  rw [hfound, hprinters]
  split_ifs with hf
  · rfl
  · cases hp : qip.printers with
    | nil => rfl
    | cons pip pips =>
      rw [List.map_cons]
      dsimp only
      rw [PrinterInfo.ppd_described]
      cases pip.ppd with
      | none => rfl
      | some ppd =>
        dsimp only
        rw [commonFontsLoop_map PrinterInfo.ppd_described]
        rfl

theorem same_described (qip : QueueInfo) : SameDescription qip.described qip where
  membername := by
    funext index
    change (qip.printers.map PrinterInfo.described)[index]?.map _ = _
    rw [List.getElem?_map, Option.map_map]
    rfl
  modelName := agreed_described (fun _ => rfl) qip
  ppdFile := agreed_described (fun _ => rfl) qip
  product := agreed_described (fun _ => rfl) qip
  shortNickName := agreed_described (fun _ => rfl) qip
  faxSupport := agreed_described (fun _ => rfl) qip
  ttRasterizer := agreed_described (fun _ => rfl) qip
  binaryOK := everyLoop_map PrinterInfo.ppd_described _ _ _
  colorDevice := everyLoop_map PrinterInfo.ppd_described _ _ _
  psLanguageLevel := by
    unfold psLanguageLevel findLowestVersion
    rw [described, lowestVersionLoop_map PrinterInfo.ppd_described]
  psFreeVM := freeVMLoop_map PrinterInfo.ppd_described _ _
  resolution := resolutionLoop_map PrinterInfo.ppd_described _ _
  fonts := fonts_described qip
  fontExists := funext fun name => hasFont_map PrinterInfo.ppd_described name _
  optionValue := by
    funext name
    have hfile : qip.described.ppdFile = qip.ppdFile := agreed_described (fun _ => rfl) qip
    rw [optionValue, optionValue, hfile, agreed_described fun _ => rfl]
  chargeExists := rfl

/-! ## Aliases -/

/-- An alias with its "ForWhat:" line. -/
structure AliasFile (env : Setting) (name dest : List Byte) where
  text : List Byte
  before : List QueueLine
  after : List QueueLine
  there : env.files.aliases name = some text
  lines : aliasLines text = before ++ .forWhat dest :: after
  before_own : ∀ l ∈ before, forWhat? l = none
  after_own : ∀ l ∈ after, forWhat? l = none

/-- The queries about the state. -/
structure SameState (a d : QueueInfo) : Prop where
  queuedJobCount : a.queuedJobCount = d.queuedJobCount
  accepting : a.accepting = d.accepting
  status : a.status = d.status
  retry : a.retry = d.retry
  stateChangeTime : a.stateChangeTime = d.stateChangeTime

/-- What depends on the lines of the queue itself. -/
structure OwnSettings (lines : List QueueLine) (a : QueueInfo) : Prop where
  comment : a.comment = lastOf comment? lines
  transparentMode : a.transparentMode = (lastOf transparent? lines).getD false
  psPassThru : a.psPassThru = (lastOf postscript? lines).getD false

/-- Two states are the same to the queries. -/
def StatesAgree : GroupSpoolState ⊕ PrinterSpoolState → GroupSpoolState ⊕ PrinterSpoolState → Prop
  | .inl s, .inl t =>
    s.jobCount = t.jobCount ∧ s.accepting = t.accepting ∧
      s.printerStateChangeTime = t.printerStateChangeTime
  | .inr s, .inr t =>
    s.jobCount = t.jobCount ∧ s.accepting = t.accepting ∧ s.status = t.status ∧
      (s.status = 4 → s.nextErrorRetry = t.nextErrorRetry ∧ s.countdown = t.countdown) ∧
      (s.status = 5 → s.nextEngagedRetry = t.nextEngagedRetry ∧ s.countdown = t.countdown) ∧
      s.printerStateChangeTime = t.printerStateChangeTime
  | _, _ => False

/-- No line of the destination counts, or it says what the alias says anyhow. -/
def KeepsOwn (f : QueueLine → Option Bool) (before dest after : List QueueLine) : Prop :=
  lastOf f after = none → ∀ b ∈ lastOf f dest, b = (lastOf f before).getD false

theorem sameState_iff {a d : QueueInfo} {s t : GroupSpoolState ⊕ PrinterSpoolState}
    (ha : a.stateOf = some s) (hd : d.stateOf = some t) (hside : s.isLeft = t.isLeft) :
    SameState a d ↔ StatesAgree s t := by
  have fields : SameState a d ↔ a.queuedJobCount = d.queuedJobCount ∧ a.accepting = d.accepting ∧
      a.status = d.status ∧ a.retry = d.retry ∧ a.stateChangeTime = d.stateChangeTime :=
    ⟨fun ⟨h₁, h₂, h₃, h₄, h₅⟩ => ⟨h₁, h₂, h₃, h₄, h₅⟩, fun ⟨h₁, h₂, h₃, h₄, h₅⟩ => ⟨h₁, h₂, h₃, h₄, h₅⟩⟩
  rw [fields]
  simp only [queuedJobCount, accepting, status, retry, stateChangeTime, stateQuery_eq, ha, hd]
  match s, t, hside with
  | .inl s, .inl t, _ => simp [StatesAgree]
  | .inr s, .inr t, _ =>
    simp only [StatesAgree, Except.ok.injEq]
    refine and_congr_right fun _ => and_congr_right fun _ => and_congr_right fun hstatus => ?_
    rw [← and_assoc]
    refine and_congr_left fun _ => ?_
    rw [hstatus]
    by_cases h₄ : t.status = 4#32
    · simp [h₄]
    · by_cases h₅ : t.status = 5#32
      · simp [h₅]
      · simp [h₄, h₅]

theorem keepsOwn_iff (f : QueueLine → Option Bool) (before dest after : List QueueLine) :
    (lastOf f after).getD ((lastOf f dest).getD ((lastOf f before).getD false)) =
        (lastOf f (before ++ after)).getD false ↔ KeepsOwn f before dest after := by
  rw [lastOf_append, KeepsOwn]
  cases lastOf f after with
  | some b => simp
  | none => cases lastOf f dest <;> simp

/-- The object that is loaded for an alias, in terms of the one for its destination. -/
theorem alias_loaded {name dest : List Byte} (al : AliasFile env name dest) {d : QueueInfo}
    (hd : newLoadConfig env (destType env dest) dest = .ok d) :
    ∃ a, newLoadConfig env .alias name = .ok a ∧ SameDescription a d ∧
      a.stateOf = some (stateUnder env dest name) ∧ d.stateOf = some (stateUnder env dest dest) ∧
      a.comment = lastOf comment? (al.before ++ al.after) ∧
      a.transparentMode = (lastOf transparent? al.after).getD
        ((lastOf transparent? (destLines env dest)).getD ((lastOf transparent? al.before).getD false)) ∧
      a.psPassThru = (lastOf postscript? al.after).getD
        ((lastOf postscript? (destLines env dest)).getD ((lastOf postscript? al.before).getD false)) := by
  obtain ⟨q₁, hq₁, hbefore, hdescribed₁, hstate₁⟩ :=
    aliasLines_settled env al.before al.before_own { name := name }
  obtain ⟨q₂, hq₂, hdest, hdescribed₂, hstate₂, hstate⟩ := aliasLine_forWhat hd hdescribed₁ hstate₁
  obtain ⟨a, ha, hafter, hdescribed, hstate'⟩ := aliasLines_settled env al.after al.after_own q₂
  have hload : newLoadConfig env .alias name = .ok a := by
    refine loaded_eq_ok.2 ?_
    have hrun : (aliasLines al.text).foldlM (aliasLine env) { name := name } = .ok a := by
      rw [al.lines, List.foldlM_append, hq₁]
      change (aliasLine env q₁ (.forWhat dest) >>= _) = _
      rw [hq₂]
      exact ha
    rw [doAlias, al.there]
    change (_ >>= _) = _
    rw [hrun]
    rfl
  refine ⟨a, hload, ?_, ?_, hstate, ?_, ?_, ?_⟩
  · have hsame := same_described a
    rw [hdescribed, hdescribed₂] at hsame
    exact hsame.of_same (same_described d)
  · rw [hstate', hstate₂, hbefore.name]
  · rw [hafter.comment, hdest.comment, hbefore.comment, lastOf_append, Option.or_none, lastOf_none]
    rfl
  · rw [hafter.transparentMode, hdest.transparentMode, hbefore.transparentMode]
  · rw [hafter.psPassThru, hdest.psPassThru, hbefore.psPassThru]

theorem newLoadConfig_search {name dest : List Byte} (al : AliasFile env name dest) :
    newLoadConfig env .search name = newLoadConfig env .alias name := by
  have hsome : ∀ next, loaded (doAlias env { name := name }) next =
      loaded (doAlias env { name := name }) (.error (missing "alias" name)) := by
    intro next
    rw [doAlias, al.there]
    dsimp only
    cases (aliasLines al.text).foldlM (aliasLine env) { name := name } <;> rfl
  exact hsome _

/-- The object for an alias answers as the one for its destination does, and about submissions from
the lines of the alias, if and only if the state files with the names of the two say the same and no
line of a group speaks for the alias. -/
theorem transparent_iff {name dest : List Byte} (al : AliasFile env name dest) (type : QueueinfoType)
    (htype : type = .alias ∨ type = .search) {d : QueueInfo}
    (hd : newLoadConfig env (destType env dest) dest = .ok d) :
    (∃ a, newLoadConfig env type name = .ok a ∧ SameDescription a d ∧ SameState a d ∧
        OwnSettings (al.before ++ al.after) a) ↔
      StatesAgree (stateUnder env dest name) (stateUnder env dest dest) ∧
        KeepsOwn transparent? al.before (destLines env dest) al.after ∧
        KeepsOwn postscript? al.before (destLines env dest) al.after := by
  obtain ⟨a, ha, hsame, hstate, hstate', hcomment, htransparent, hpostscript⟩ := alias_loaded al hd
  have hload : newLoadConfig env type name = .ok a := by
    rcases htype with rfl | rfl
    · exact ha
    · rw [newLoadConfig_search al, ha]
  have hside : (stateUnder env dest name).isLeft = (stateUnder env dest dest).isLeft := by
    unfold stateUnder
    split_ifs <;> rfl
  rw [← sameState_iff hstate hstate' hside, ← keepsOwn_iff, ← keepsOwn_iff, ← htransparent,
    ← hpostscript]
  constructor
  · rintro ⟨a', ha', -, hs, hown⟩
    cases hload.symm.trans ha'
    exact ⟨hs, hown.transparentMode, hown.psPassThru⟩
  · rintro ⟨hs, ht, hp⟩
    exact ⟨a, hload, hsame, hs, hcomment, ht, hp⟩

/-- A printer, with its state file, and an alias for it. -/
def onePrinter (state : Option (List Byte)) : Setting where
  files := {
    aliases := fun name => if name = ascii "a" then some (ascii "ForWhat: p\n") else none
    groups := fun _ => none
    printers := fun name => if name = ascii "p" then some (ascii "Interface: dummy\n") else none
    ppd := Pprdrv.onePpd ""
    groupState := fun _ => none
    printerState := fun name => if name = ascii "p" then state else none }
  decoder := ⟨true, 0⟩
  unset := fun _ => ⟨none, ⟨false, false⟩, false⟩

def onePrinterAlias (state : Option (List Byte)) :
    AliasFile (onePrinter state) (ascii "a") (ascii "p") where
  text := ascii "ForWhat: p\n"
  before := []
  after := []
  there := by simp [onePrinter]
  lines := by decide +kernel
  before_own := nofun
  after_own := nofun

/-- Where there are no state files, the alias is transparent. -/
theorem transparent_onePrinter :
    ∃ d, newLoadConfig (onePrinter none) (destType (onePrinter none) (ascii "p")) (ascii "p") = .ok d ∧
      ∃ a, newLoadConfig (onePrinter none) .alias (ascii "a") = .ok a ∧ SameDescription a d ∧
        SameState a d ∧ OwnSettings [] a := by
  have loads : (newLoadConfig (onePrinter none) (destType (onePrinter none) (ascii "p"))
      (ascii "p")).isOk = true := by
    decide +kernel
  match hd : newLoadConfig (onePrinter none) (destType (onePrinter none) (ascii "p")) (ascii "p"),
    loads with
  | .ok d, _ =>
    refine ⟨d, rfl, (transparent_iff (onePrinterAlias none) .alias (.inl rfl) hd).2 ⟨?_, ?_, ?_⟩⟩
    · exact ⟨rfl, rfl, rfl, fun _ => ⟨rfl, rfl⟩, fun _ => ⟨rfl, rfl⟩, rfl⟩
    · exact fun _ => nofun
    · exact fun _ => nofun

/-- A printer accepts no jobs, but its alias says that it does. -/
theorem not_transparent_closed :
    ¬∀ a d, newLoadConfig (onePrinter (some (ascii "0 0 0 0 0 0 0 0 0\n"))) .alias (ascii "a") = .ok a →
      newLoadConfig (onePrinter (some (ascii "0 0 0 0 0 0 0 0 0\n"))) .printer (ascii "p") = .ok d →
      a.accepting = d.accepting := by
  intro h
  have hrun : ((newLoadConfig (onePrinter (some (ascii "0 0 0 0 0 0 0 0 0\n"))) .alias
        (ascii "a")).map fun a => a.accepting.toOption).toOption = some (some 1) ∧
      ((newLoadConfig (onePrinter (some (ascii "0 0 0 0 0 0 0 0 0\n"))) .printer
        (ascii "p")).map fun d => d.accepting.toOption).toOption = some (some 0) := by
    decide +kernel
  match ha : newLoadConfig (onePrinter (some (ascii "0 0 0 0 0 0 0 0 0\n"))) .alias (ascii "a"),
    hd : newLoadConfig (onePrinter (some (ascii "0 0 0 0 0 0 0 0 0\n"))) .printer (ascii "p") with
  | .ok a, .ok d =>
    rw [ha, hd] at hrun
    have hsame := h a d ha hd
    have h₁ : a.accepting.toOption = some 1 := Option.some.inj hrun.1
    have h₀ : d.accepting.toOption = some 0 := Option.some.inj hrun.2
    rw [hsame, h₀] at h₁
    exact absurd h₁ (by decide)
  | .error e, _ =>
    rw [ha] at hrun
    exact absurd hrun.1 nofun
  | .ok a, .error e =>
    rw [hd] at hrun
    exact absurd hrun.2 nofun

end QueueInfo

end Ppr.Queueinfo
