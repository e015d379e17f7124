import Ppr.Proof.Loads

/-!
# What an event can do

`Allowed s ev t a` says when the event `ev`, which found the tables as `s`, may do the act `a` in the
state `t` it has brought about so far.  `step_acts` is the one theorem about `step`: what an event
does is a path of allowed acts.
-/

namespace Ppr

open Outcome Machine

variable {os : ℕ → Bool}

/-! ## What events name -/

/-- The event is a command to cancel or purge jobs, and the entry is one of those it names. -/
def Event.cancels (s : Pprd) : Event → QEntry → Bool
  | .ppop (.cancel destname id subid), q =>
    ((destidByName s destname).isSome || destname = "all" || destname = "any") &&
      q.isNamed (destidByName s destname) id subid
  | .ipp (.cancelJob jobid), q => q.isNamed none jobid wildcard
  | .ipp (.purgeJobs (.group name)), q =>
    (destidByGroup s ("group " ++ name)).any fun d => q.isNamed (some d) wildcard wildcard
  | .ipp (.purgeJobs (.printer name)), q =>
    (destidByPrinter s ("printer " ++ name)).any fun d => q.isNamed (some d) wildcard wildcard
  | _, _ => false

/-- The new destination if the event is a command to move jobs and entry `x` is one of those it
names. -/
def Event.moves (s : Pprd) : Event → ℕ → Option (ℕ × String)
  | .ppop (.move destname id subid newDestname), x =>
    match destidByName s destname, destidByName s newDestname with
    | some d, some d' => if (s.job x).isNamed (some d) id subid then some (d', newDestname) else none
    | _, _ => none
  | .ipp (.moveJob jobid target), x =>
    match moveTarget s target with
    | some d => if findJobid s jobid = some x then some (d, destidToName s d) else none
    | none => none
  | _, _ => none

/-- The event is a command to stop, halt or pause printer `p`. -/
def Event.stops (s : Pprd) : Event → ℕ → Bool
  | .ppop (.stop n), p | .ppop (.wstop n _), p | .ppop (.halt n), p =>
    destidByNameReversed s n = some p && !destidIsGroup s p
  | .ipp (.pausePrinter (.printer n)), p => destidByPrinter s n = some p
  | _, _ => false

/-- The event is the end of the pprdrv of printer `p`, with the exit code. -/
def Event.reaps (s : Pprd) : Event → ℕ → Option ExitCode
  | .reapchild _ pid w, p =>
    if p < s.printerCount ∧ (s.printers p).jobPid = pid then
      some (effectiveExitCode (s.prnStatus p) w)
    else none
  | _, _ => none

/-- The event is one of the submitting side, or the daemon reads a submission. -/
def Event.submits : Event → Bool
  | .pprStart _ | .pprTakeSkeleton _ _ | .pprFinish _ _ | .queueNewJob => true
  | _ => false

/-- The event is a command to move a job to the front or the back of the queue. -/
def Event.rushes : Event → Bool
  | .ppop (.rush ..) => true
  | _ => false

/-- The submission at the head of the FIFO is about to be read. -/
def Event.enters (s : Pprd) (ev : Event) (sub : Submission) (t : Pprd) (q : QEntry) : Prop :=
  ev = .queueNewJob ∧ ∃ rest name, s.fifo = sub :: rest ∧ (sub = .new name ∨ sub = .reload name) ∧
    Frame { s with fifo := rest } t ∧ Entered { s with fifo := rest } name q

/-- When an event may do an act. -/
def Allowed (s : Pprd) (ev : Event) (t : Pprd) : Act → Prop
  | .ppr => ev.submits
  | .status p st =>
    (t.prnStatus p = .fault ∨ t.prnStatus p = .engaged ∨ t.prnStatus p = .stopt) ∧ st = .idle ∨
      t.prnStatus p = .stopping ∧ st = .printing ∨
      ev.stops s p ∧ t = s ∧ (∃ halt, stopStatus halt (s.prnStatus p) = some st) ∨
      (ev.reaps s p).isSome ∧ (s.prnStatus p ≠ .idle →
        (t.printers p).jobPid = 0 ∧ t.prnStatus p = s.prnStatus p)
  | .cancel x _ | .cancelSeizing x _ | .purge x _ => ev.cancels s (t.job x) ∧ Canceling s t
  | .exitRemove p e _ | .exitMiss p e | .exitKeep p e _ _ => t = s ∧ ev.reaps s p = some e
  | .insert _ q => ∃ name, ev.enters s (.new name) t q
  | .replace _ q => ∃ name, ev.enters s (.reload name) t q
  | .rush _ _ => ev.rushes
  | .move x d n =>
    ev.moves s x = some (d, n) ∧ x < s.queue.length ∧ (s.job x).status.isPrinting = false ∧
      Moving s (fun z => (ev.moves s z).isSome) d n x t
  | .newPrinter p _ => t = s ∧ ∃ n conf, ev = .newPrinterConfig n conf ∧
      destidByPrinter s n = none ∧ p = freeSlot s ∧ (p = s.printerCount ∨ conf.isSome)
  | .reload p _ _ => t = s ∧ ∃ n conf, ev = .newPrinterConfig n (some conf) ∧
      destidByPrinter s n = some p
  | .deletePrinter p => t = s ∧ ∃ n, ev = .newPrinterConfig n none ∧ destidByPrinter s n = some p
  | .newGroup g _ => t = s ∧ ∃ n conf, ev = .newGroupConfig n conf ∧ findGroup s n = none ∧
      g = freeGroup s ∧ (g = s.groupCount ∨ conf.isSome)
  | .group g c => c = { (t.groups g).core with held := c.held } ∨
      ∃ n conf, ev = .newGroupConfig n conf
  | _ => True

theorem base_allowed (s : Pprd) (ev : Event) : Base fun a t => Allowed s ev t a where
  frame _ := trivial
  start _ _ _ _ _ := trivial
  starve _ _ := trivial
  feed _ _ := trivial
  retry _ _ h := .inl ⟨h, rfl⟩
  goOn _ _ h := .inr (.inl ⟨h, rfl⟩)
  mount _ _ _ := trivial
  seize _ _ _ := trivial
  hold _ _ _ := .inl rfl

variable {K : Act → Pprd → Prop}

/-! ## ppop -/

theorem frame_setAccepting (s : Pprd) (d : ℕ) (accepting : Bool) :
    Frame s (setAccepting s d accepting) := by
  unfold setAccepting
  split_ifs
  · exact (frame_modifyGroup s _ rfl).trans (frame_groupSpoolStateSave _ _)
  · exact (frame_modifyPrinter s _ rfl).trans (frame_printerSpoolStateSave _ _)

theorem setHeld_acts (hK : Base K) {s : Pprd} {g : ℕ} (held : Bool) (hg : g < s.groupCount) :
    Acts K s (setHeld s g held) := by
  have h : Acts K s (s.modifyGroup g fun c => { c with spoolState.held := held }) :=
    Trail.single (hK.hold g held s) (change_group (fun c => { c with spoolState.held := held }) hg
      (fun m hm => .inr hm) rfl id)
  exact hK.acts_then_frame h (frame_groupSpoolStateSave _ g)

theorem change_rush {s : Pprd} {x : ℕ} (newpos : ℤ) (hx : x < s.queue.length) :
    Change (.rush x newpos) s (rushEntry s x newpos) where
  ok := hx
  queue := ⟨s.queue, .refl _, rfl⟩
  printer _ := by simp [Act.printer?, rushEntry]
  printerCount := rfl
  group _ := rfl
  groupCount := rfl
  active := (add_zero _).symm
  starving := (add_zero _).symm
  files _ _ := rfl
  fifo _ := rfl
  pprs _ := rfl

theorem change_mount {s : Pprd} {p : ℕ} (name : String) (m : ℤ) (hp : p < s.printerCount) :
    Change (.mount p (setBin (s.printers p).bins name m)) s
      (s.modifyPrinter p fun p => { p with bins := setBin p.bins name m }) := by
  refine .of_printerOnly (printerOnly_modifyPrinter s p _) ⟨hp, map_name_setBin _ _ _⟩
    (fun p' => ?_) rfl rfl rfl rfl rfl rfl fun _ => rfl
  rw [core_modifyPrinter]
  simp only [Act.printer?, Option.some.injEq, eq_comm (a := p)]
  by_cases h : p' = p
  · subst h
    simp only [if_true]
    rfl
  · simp only [h, if_false]

theorem withPrinter_ensures {s : Pprd} {n : String} {f : ℕ → Except Stop (Pprd × PpopReply)}
    {Q : Pprd → Prop} (h0 : Q s)
    (hf : ∀ p, destidByNameReversed s n = some p → p < s.printerCount →
      Ensures (f p) fun r => Q r.1) :
    Ensures (withPrinter s n f) fun r => Q r.1 := by
  unfold withPrinter
  split
  · exact ensures_ok h0
  · rename_i p hp
    refine ensures_ite (fun _ => ensures_ok h0) fun hg => hf p hp ?_
    simpa [destidIsGroup] using hg

theorem withJob_ensures {s : Pprd} {n : String} {id subid : ℤ}
    {f : ℕ → Except Stop (Pprd × PpopReply)} {Q : Pprd → Prop} (h0 : Q s)
    (hf : ∀ x < s.queue.length, Ensures (f x) fun r => Q r.1) :
    Ensures (withJob s n id subid f) fun r => Q r.1 := by
  unfold withJob
  split
  · exact ensures_ok h0
  · split
    · exact ensures_ok h0
    · rename_i x hx
      exact hf x (List.findIdx?_eq_some_iff_getElem.1 hx).1

/-- The state of a command that returns it with its reply. -/
theorem ensures_reply {α : Type} {x : Except Stop Pprd} {r : α} {Q : Pprd → Prop}
    (h : Ensures x Q) : Ensures (do
      let s ← x
      Except.ok (s, r)) fun r => Q r.1 :=
  Ensures.bind h fun _ hs => ensures_ok hs

/-- What an event may do, as the permission for paths. -/
abbrev AllowedActs (s : Pprd) (ev : Event) : Pprd → Pprd → Prop := Acts fun a t => Allowed s ev t a

theorem ppopStart_acts (hK : Base K) (s : Pprd) (n : String) :
    Ensures (ppopStart os s n) fun r => Acts K s r.1 := by
  refine withPrinter_ensures (.refl s) fun p _ hp => ?_
  dsimp only
  generalize hu : (if s.prnStatus p = .stopping then _ else s) = u
  have hf : Frame s u := by
    subst hu
    split_ifs
    · exact frame_modifyPrinter s p rfl
    · rfl
  refine ensures_reply ((startPrinter_acts hK ?_).mono fun t ht => hK.frame_acts hf ht)
  exact hf.printerCount ▸ hp

theorem ppopStop_acts (s : Pprd) (n : String) (halt : Bool) (wait : Option ℤ) {ev : Event}
    (hev : ∀ p, destidByNameReversed s n = some p → p < s.printerCount → ev.stops s p) :
    Ensures (ppopStop s n halt wait) fun r => AllowedActs s ev s r.1 := by
  refine withPrinter_ensures (.refl s) fun p hp hlt => ?_
  have hs := stopPrinter_acts (base_allowed s ev) halt hlt fun st hst =>
    .inr (.inr (.inl ⟨hev p hp hlt, rfl, halt, hst⟩))
  refine Ensures.bind hs fun t ht => ?_
  split
  · exact ensures_ok ht
  · exact ensures_ok ht
  · exact ensures_ok ht
  · cases wait with
    | none => exact ensures_ok ht
    | some pid =>
      have hf : Frame t (t.modifyPrinter p fun p => { p with ppopPid := pid }) :=
        frame_modifyPrinter t p rfl
      exact ensures_ite (fun _ => ensures_ok ht) fun _ =>
        ensures_ok ((base_allowed _ _).acts_then_frame ht hf)

theorem ppopRelease_acts (hK : Base K) (s : Pprd) (n : String) (id subid : ℤ) :
    Ensures (ppopRelease os s n id subid) fun r => Acts K s r.1 := by
  refine withJob_ensures (.refl s) fun x hx => ?_
  cases hst : (s.job x).status with
  | held | arrested => exact ensures_reply (releaseJob_acts hK hx (by rw [hst]; rfl))
  | _ => exact ensures_ok (.refl s)

theorem ppopCancelPurge_acts (s : Pprd) (n : String) (id subid : ℤ) :
    Ensures (ppopCancelPurge s n id subid) fun r =>
      AllowedActs s (.ppop (.cancel n id subid)) s r.1 := by
  refine ensures_ite (fun _ => ensures_ok (.refl s)) fun hn => ?_
  have hc : CancelPermit (fun a t => Allowed s (.ppop (.cancel n id subid)) t a) s
      fun q => q.isNamed (destidByName s n) id subid := by
    intro t x ht _ hx
    have : Event.cancels s (.ppop (.cancel n id subid)) (t.job x) := by
      simp only [Event.cancels, Bool.and_eq_true, Bool.or_eq_true, decide_eq_true_eq,
        Option.isSome_iff_ne_none]
      exact ⟨by tauto, hx⟩
    exact ⟨fun p => ⟨this, ht⟩, fun y => ⟨this, ht⟩, fun _ p => ⟨this, ht⟩⟩
  refine Ensures.bind (cancelJobs_acts (base_allowed _ _) hc) fun t ht => ?_
  exact ensures_ite (fun _ => ensures_ok ht) fun _ => ensures_ok ht

theorem ppopMount_acts (hK : Base K) (s : Pprd) (prn bin medium : String) :
    Ensures (ppopMount os s prn bin medium) fun r => Acts K s r.1 := by
  refine withPrinter_ensures (.refl s) fun p _ hp => ?_
  refine ensures_ite (fun _ => ?_) fun _ => ensures_ok (.refl s)
  refine Ensures.bind (frame_getMediaId s medium) ?_
  rintro ⟨t, m⟩ ht
  have hpt : p < t.printerCount := ht.printerCount ▸ hp
  have hu : Acts K t (t.modifyPrinter p fun p => { p with bins := setBin p.bins bin m }) :=
    Trail.single (hK.mount _ _ _) (change_mount bin m hpt)
  refine Ensures.bind (frame_mediaUpdateNotnow _ p) fun v hv => ?_
  refine Ensures.bind (lookForWorkIfIdle_starts (.inl (hv.printerCount ▸ hpt))) fun w hw => ?_
  refine ensures_ok (hK.acts_then_frame ?_ (frame_mediaMountedSave w p))
  exact (hK.acts_then_frame (hK.frame_acts ht hu) hv).trans (hw.acts hK)

theorem ppopMove_acts (s : Pprd) (n : String) (id subid : ℤ) (n' : String) :
    Ensures (ppopMove os s n id subid n') fun r =>
      AllowedActs s (.ppop (.move n id subid n')) s r.1 := by
  unfold ppopMove
  split
  · rename_i d d' hd hd'
    have hm : MovePermit (fun a t => Allowed s (.ppop (.move n id subid n')) t a) s
        (fun x => (s.job x).isNamed (some d) id subid) d' n' := by
      intro t x ht hx hnamed hp
      have he : ∀ z, Event.moves s (.ppop (.move n id subid n')) z =
          if (s.job z).isNamed (some d) id subid then some (d', n') else none := by
        intro z
        simp only [Event.moves, hd, hd']
      refine ⟨by rw [he, if_pos hnamed], hx, hp, ?_⟩
      have : (fun z => (Event.moves s (.ppop (.move n id subid n')) z).isSome) =
          fun z => (s.job z).isNamed (some d) id subid := by
        funext z
        rw [he]
        split_ifs with h <;> simp [h]
      rw [this]
      exact ht
    refine Ensures.bind (moveJobs_acts (base_allowed _ _) hm) fun t ht => ?_
    exact ensures_ite (fun _ => ensures_ok ht) fun _ => ensures_ok ht
  · exact ensures_ok (.refl s)

theorem ppopDispatch_acts (s : Pprd) (c : PpopCommand) :
    Ensures (ppopDispatch os s c) fun r => AllowedActs s (.ppop c) s r.1 := by
  have hstop : ∀ {n : String} {p : ℕ}, destidByNameReversed s n = some p → p < s.printerCount →
      (destidByNameReversed s n = some p && !destidIsGroup s p) = true := by
    intro n p h hp
    simp [h, destidIsGroup, hp]
  cases c with
  | start n => exact ppopStart_acts (base_allowed _ _) s n
  | stop n => exact ppopStop_acts s n false none fun p h hp => hstop h hp
  | wstop n pid => exact ppopStop_acts s n false (some pid) fun p h hp => hstop h hp
  | halt n => exact ppopStop_acts s n true none fun p h hp => hstop h hp
  | hold n id subid =>
    exact withJob_ensures (.refl s) fun x hx => ensures_reply (holdJob_acts (base_allowed _ _) hx)
  | release n id subid => exact ppopRelease_acts (base_allowed _ _) s n id subid
  | cancel n id subid => exact ppopCancelPurge_acts s n id subid
  | mount prn bin medium => exact ppopMount_acts (base_allowed _ _) s prn bin medium
  | accept n | reject n =>
    simp only [ppopDispatch, ppopAcceptReject]
    split
    · exact ensures_ok (.refl s)
    · exact ensures_ok ((base_allowed _ _).acts_frame (frame_setAccepting s _ _))
  | move n id subid n' => exact ppopMove_acts s n id subid n'
  | rush n id subid pos =>
    refine withJob_ensures (.refl s) fun x hx => ensures_ok ?_
    exact Trail.single (a := .rush x pos) rfl (change_rush pos hx)
  | modifyQuestion n id subid onOff =>
    refine withJob_ensures (.refl s) fun x _ => ensures_reply ?_
    exact (frame_questionOnOff os s x onOff).mono fun t ht => (base_allowed _ _).acts_frame ht

/-! ## The IPP server -/

theorem findJobid_lt {s : Pprd} {jobid : ℤ} {x : ℕ} (h : findJobid s jobid = some x) :
    x < s.queue.length :=
  (List.findIdx?_eq_some_iff_getElem.1 h).1

theorem destidByGroup_eq_some {s : Pprd} {n : String} {d : ℕ} (h : destidByGroup s n = some d) :
    destidToGindex d < s.groupCount := by
  obtain ⟨g, hg, rfl⟩ := Option.map_eq_some_iff.1 h
  simpa [destidToGindex, destidByGindex] using List.mem_of_find?_eq_some hg

theorem ippCancelJobCore_acts {s : Pprd} {destid : Option ℕ} {jobid : ℤ} {ev : Event}
    (hev : ∀ q : QEntry, q.isNamed destid jobid wildcard → ev.cancels s q) :
    Ensures (ippCancelJobCore s destid jobid) fun r => AllowedActs s ev s r.1 := by
  have hc : CancelPermit (fun a t => Allowed s ev t a) s
      fun q => q.isNamed destid jobid wildcard := fun t x ht _ hx =>
    ⟨fun p => ⟨hev _ hx, ht⟩, fun y => ⟨hev _ hx, ht⟩, fun _ p => ⟨hev _ hx, ht⟩⟩
  refine Ensures.bind (cancelJobs_acts (base_allowed _ _) hc) fun t ht => ?_
  exact ensures_ite (fun _ => ensures_ok ht) fun _ => ensures_ok ht

theorem ippHoldJob_acts (hK : Base K) (s : Pprd) (jobid : ℤ) :
    Ensures (ippHoldJob s jobid) fun r => Acts K s r.1 := by
  unfold ippHoldJob
  split
  · exact ensures_ok (.refl s)
  · rename_i x hx
    exact ensures_reply (holdJob_acts hK (findJobid_lt hx))

theorem ippReleaseJob_acts (hK : Base K) (s : Pprd) (jobid : ℤ) :
    Ensures (ippReleaseJob os s jobid) fun r => Acts K s r.1 := by
  unfold ippReleaseJob
  split
  · exact ensures_ok (.refl s)
  · rename_i x hx
    cases hst : (s.job x).status with
    | held => exact ensures_reply (releaseJob_acts hK (findJobid_lt hx) (by rw [hst]; rfl))
    | _ => exact ensures_ok (.refl s)

theorem ippPausePrinter_acts (s : Pprd) (target : IppTarget) :
    Ensures (ippPausePrinter s target) fun r =>
      AllowedActs s (.ipp (.pausePrinter target)) s r.1 := by
  cases target with
  | other => exact ensures_ok (.refl s)
  | group n =>
    simp only [ippPausePrinter]
    split
    · exact ensures_ok (.refl s)
    · rename_i d hd
      exact ensures_ok (setHeld_acts (base_allowed _ _) true (destidByGroup_eq_some hd))
  | printer n =>
    simp only [ippPausePrinter]
    split
    · exact ensures_ok (.refl s)
    · rename_i p hp
      have hs := stopPrinter_acts
        (base_allowed s (.ipp (.pausePrinter (.printer n)))) true (destidByPrinter_eq_some hp).1
        fun st hst => .inr (.inr (.inl ⟨by simpa [Event.stops] using hp, rfl, true, hst⟩))
      cases s.prnStatus p with
      | halting | stopt | stopping | deleted => exact ensures_ok (.refl s)
      | _ => exact ensures_reply hs

theorem ippResumePrinter_acts (hK : Base K) (s : Pprd) (target : IppTarget) :
    Ensures (ippResumePrinter os s target) fun r => Acts K s r.1 := by
  cases target with
  | other => exact ensures_ok (.refl s)
  | group n =>
    simp only [ippResumePrinter]
    split
    · exact ensures_ok (.refl s)
    · rename_i d hd
      refine ensures_reply ((groupLookForWork_starts _ _).mono fun t ht => ?_)
      exact (setHeld_acts hK false (destidByGroup_eq_some hd)).trans (ht.acts hK)
  | printer n =>
    simp only [ippResumePrinter]
    split
    · exact ensures_ok (.refl s)
    · rename_i p hp
      exact ensures_reply (startPrinter_acts hK (destidByPrinter_eq_some hp).1)

theorem ippPurgeJobs_acts (s : Pprd) (target : IppTarget) :
    Ensures (ippPurgeJobs s target) fun r => AllowedActs s (.ipp (.purgeJobs target)) s r.1 := by
  cases target with
  | other => exact ensures_ok (.refl s)
  | group n | printer n =>
    simp only [ippPurgeJobs]
    split
    · exact ensures_ok (.refl s)
    · rename_i d hd
      exact ippCancelJobCore_acts fun q hq => by simpa [Event.cancels, hd] using hq

theorem cupsAcceptOrRejectJobs_acts (hK : Base K) (s : Pprd) (accepting : Bool)
    (target : IppTarget) :
    Ensures (cupsAcceptOrRejectJobs s accepting target) fun r => Acts K s r.1 := by
  cases target with
  | other => exact ensures_ok (.refl s)
  | group n =>
    simp only [cupsAcceptOrRejectJobs]
    split
    · exact ensures_ok (.refl s)
    · exact ensures_ok (hK.acts_frame (frame_setAccepting s _ _))
  | printer n =>
    simp only [cupsAcceptOrRejectJobs]
    split
    · exact ensures_ok (.refl s)
    · exact ensures_error

theorem cupsMoveJob_acts (s : Pprd) (jobid : ℤ) (target : IppTarget) :
    Ensures (cupsMoveJob os s jobid target) fun r =>
      AllowedActs s (.ipp (.moveJob jobid target)) s r.1 := by
  unfold cupsMoveJob
  split
  · exact ensures_ok (.refl s)
  · rename_i d hd
    split
    · exact ensures_ok (.refl s)
    · rename_i x hx
      have he : Event.moves s (.ipp (.moveJob jobid target)) x = some (d, destidToName s d) := by
        simp [Event.moves, hd, hx]
      have move : (s.job x).status.isPrinting = false → Ensures
          (moveJob os s x d (destidToName s d)) (AllowedActs s (.ipp (.moveJob jobid target)) s) := by
        intro hp
        have hm : Moving s (fun z => (Event.moves s (.ipp (.moveJob jobid target)) z).isSome) d
          (destidToName s d) x s := Moving.refl s x
        refine (moveJob_acts (base_allowed _ _) hm (findJobid_lt hx) (by simp [he]) hp
          ⟨he, findJobid_lt hx, hp, hm⟩).mono fun t ht => ht.1
      cases hst : (s.job x).status with
      | printing p => exact ensures_ok (.refl s)
      | _ => exact ensures_reply (move (by rw [hst]; rfl))

theorem ippDispatch_acts (s : Pprd) (c : IppCommand) :
    Ensures (ippDispatch os s c) fun r => AllowedActs s (.ipp c) s r.1 := by
  cases c with
  | cancelJob jobid => exact ippCancelJobCore_acts fun q hq => hq
  | holdJob jobid => exact ippHoldJob_acts (base_allowed _ _) s jobid
  | releaseJob jobid => exact ippReleaseJob_acts (base_allowed _ _) s jobid
  | pausePrinter target => exact ippPausePrinter_acts s target
  | resumePrinter target => exact ippResumePrinter_acts (base_allowed _ _) s target
  | purgeJobs target => exact ippPurgeJobs_acts s target
  | acceptJobs target => exact cupsAcceptOrRejectJobs_acts (base_allowed _ _) s true target
  | rejectJobs target => exact cupsAcceptOrRejectJobs_acts (base_allowed _ _) s false target
  | moveJob jobid target => exact cupsMoveJob_acts s jobid target

/-! ## All events -/

theorem ensures_fst {α β ε : Type} {x : Except ε (α × β)} {Q : α → Prop}
    (h : Ensures x fun r => Q r.1) : Ensures (Prod.fst <$> x) Q := by
  intro a ha
  cases x with
  | error e => cases ha
  | ok r =>
    cases ha
    exact h r rfl

/-- What an event does is a path of allowed acts. -/
theorem step_acts {s : Pprd} {ev : Event} (hev : ev.possible) :
    Ensures (step os s ev) (AllowedActs s ev s) := by
  have hB := base_allowed s ev
  cases ev with
  | pprStart n => exact ensures_ok (Trail.single (a := .ppr) rfl (pprOnly_pprStart s n).change)
  | pprTakeSkeleton n id =>
    exact ensures_ok (Trail.single (a := .ppr) rfl (pprOnly_pprTakeSkeleton s n id).change)
  | pprFinish i e => exact ensures_ok (Trail.single (a := .ppr) rfl (pprOnly_pprFinish s i e).change)
  | queueNewJob =>
    refine queueNewJob_acts hB (fun _ => rfl) (fun name rest h u q hu hq => ⟨fun _ => ?_, by simp⟩)
      fun name rest h u q hu hq => ⟨by simp, fun _ x => ?_⟩
    · exact ⟨name, rfl, rest, name, h, .inl rfl, hu, hq⟩
    · exact ⟨name, rfl, rest, name, h, .inr rfl, hu, hq⟩
  | newPrinterConfig n conf =>
    refine newPrinterConfig_acts hB ⟨?_, ?_, ?_⟩
    · rintro p hp rfl
      exact ⟨rfl, n, rfl, hp⟩
    · intro p bins auto hp hc
      obtain ⟨conf, rfl⟩ := Option.isSome_iff_exists.1 hc
      exact ⟨rfl, n, conf, rfl, hp⟩
    · exact fun c hn hs => ⟨rfl, n, conf, rfl, hn, rfl, hs⟩
  | newGroupConfig n conf =>
    exact newGroupConfig_acts hB (fun c hn hs => ⟨rfl, n, conf, rfl, hn, rfl, hs⟩)
      fun g c t => .inr ⟨n, conf, rfl⟩
  | ppop c => exact ensures_fst (ppopDispatch_acts s c)
  | ipp c => exact ensures_fst (ippDispatch_acts s c)
  | reapchild now pid w =>
    refine reapchild_acts hB hev fun p hp hpid => ?_
    have he : Event.reaps s (.reapchild now pid w) p =
        some (effectiveExitCode (s.prnStatus p) w) := by
      simp [Event.reaps, hp, hpid]
    refine ⟨fun a ha => ?_, fun t st h => ?_⟩
    · cases a with
      | exitRemove p' e y | exitMiss p' e | exitKeep p' e y st =>
        obtain ⟨rfl, rfl⟩ := ha
        exact ⟨rfl, he⟩
      | _ => exact ha.elim
    · exact .inr (.inr (.inr ⟨by simp [he], h⟩))
  | tick now =>
    refine Ensures.bind (printerTick_acts hB s) fun t ht => ?_
    exact (frame_questionTick os now t).mono fun u hu => hB.acts_then_frame ht hu

end Ppr
