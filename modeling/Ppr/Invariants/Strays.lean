import Ppr.Invariants.Linked

/-!
# The events that lead astray

In a run in which names and links are kept apart, the daemon looks for a job that is not there, or
behind the end of a table, for a few events only, and for these in every case.
-/

namespace Ppr

open Outcome Machine

variable {os : ℕ → Bool}

/-- The entry that a command names. -/
def jobNamed (s : Pprd) (destname : String) (id subid : ℤ) : Option ℕ :=
  (destidByName s destname).bind fun destid => s.queue.findIdx? fun q =>
    q.destid = destid ∧ q.id = id ∧ (subid = wildcard ∨ q.subid = subid)

/-- A job that is being canceled is to be held, jobs are to be accepted or rejected for a printer with
the name of a group, a group behind the end of the table is resumed, there is no slot for a new group,
or there are as many jobs as there can be groups when a group is configured. -/
def Event.strays (s : Pprd) : Event → Prop
  | .ppop (.hold n id subid) => ∃ x, jobNamed s n id subid = some x ∧ (s.job x).status = .cancel
  | .ipp (.holdJob jobid) => ∃ x, findJobid s jobid = some x ∧ (s.job x).status = .cancel
  | .ipp (.resumePrinter (.group n)) =>
    ∃ d, destidByGroup s n = some d ∧ maxGroups ≤ destidToGindex d
  | .ipp c => c.acceptsGroup s = true
  | .newGroupConfig n conf => maxGroups < groupSlot s n ∨
      groupSlot s n < maxGroups ∧ maxGroups ≤ s.queue.length ∧ ∃ c, conf = some c ∧ c.rotate ≠ some none
  | _ => False

theorem holdJob_strays {s : Pprd} {x : ℕ} (h : (s.job x).status = .cancel) :
    holdJob s x = .error .wildIndex := by
  unfold holdJob
  rw [h]

theorem groupLookForWork_strays (s : Pprd) {g : ℕ} (h : maxGroups ≤ g) :
    groupLookForWork os s g = .error .wildIndex :=
  if_neg (Nat.not_lt.2 h)

theorem newGroupConfig_strays {s : Pprd} {n : String} {conf : Option GroupConf}
    (h : (Event.newGroupConfig n conf).strays s) : newGroupConfig os s n conf = .error .wildIndex := by
  rw [newGroupConfig_eq]
  dsimp only
  rcases h with hgt | ⟨hlt, hlen, conf, rfl, hrotate⟩
  · rw [if_neg (by omega), if_pos hgt]
  · rw [if_neg (by omega), if_neg (by omega)]
    dsimp only
    cases hload : loadGroup (withGroup s (groupSlot s n)) (groupSlot s n) n conf with
    | error e =>
      unfold loadGroup at hload
      dsimp only at hload
      split at hload
      · rename_i hr
        cases hconf : conf.rotate with
        | none =>
          rw [hconf] at hr
          cases hr
        | some r =>
          rw [hconf] at hr
          exact absurd (hconf.trans (congrArg some hr)) hrotate
      · cases hload
    | ok t =>
      obtain ⟨c, -, -, -, rfl⟩ := loadGroup_ensures (withGroup s (groupSlot s n)) (groupSlot s n) n conf t hload
      refine groupLookForWork_strays _ ?_
      rw [(frame_forJobsOf (destidByGindex (groupSlot s n)) frame_resetGroupJob _).queue.length]
      exact hlen

/-- An event that leads astray does so in every state. -/
theorem step_strays {s : Pprd} {ev : Event} (h : ev.strays s) : step os s ev = .error .wildIndex := by
  cases ev with
  | newGroupConfig n conf => exact newGroupConfig_strays h
  | ppop c =>
    cases c with
    | hold n id subid =>
      obtain ⟨x, hx, hst⟩ := h
      obtain ⟨d, hd, hx⟩ := Option.bind_eq_some_iff.1 hx
      simp only [step, ppopDispatch, ppopHold, withJob, hd]
      rw [hx]
      dsimp only
      rw [holdJob_strays hst]
      rfl
    | _ => exact h.elim
  | ipp c =>
    cases c with
    | holdJob jobid =>
      obtain ⟨x, hx, hst⟩ := h
      simp only [step, ippDispatch, ippHoldJob, hx]
      rw [holdJob_strays hst]
      rfl
    | resumePrinter target =>
      cases target with
      | group n =>
        obtain ⟨d, hd, hge⟩ := h
        simp only [step, ippDispatch, ippResumePrinter, hd]
        rw [groupLookForWork_strays _ hge]
        rfl
      | _ => cases h
    | acceptJobs target | rejectJobs target =>
      cases target with
      | printer n =>
        obtain ⟨d, hd⟩ := Option.isSome_iff_exists.1 h
        simp only [step, ippDispatch, cupsAcceptOrRejectJobs, hd]
        rfl
      | _ => cases h
    | _ => cases h
  | _ => exact h.elim

/-- Other events do not lead astray, as long as every pprdrv has its job. -/
theorem step_avoids {s : Pprd} (ht : Tidy s) {ev : Event} (hev : ev.possible) (h : ¬ev.strays s) :
    Avoids (step os s ev) Stray := by
  cases ev with
  | pprStart n => exact avoids_ok
  | pprTakeSkeleton n id => exact avoids_ok
  | pprFinish i e => exact avoids_ok
  | queueNewJob => exact queueNewJob_avoids s
  | newPrinterConfig n conf => exact newPrinterConfig_avoids s n conf
  | newGroupConfig n conf =>
    have hslot : groupSlot s n ≤ maxGroups := Nat.not_lt.1 fun hgt => h (.inl hgt)
    refine newGroupConfig_avoids hslot fun c hc hlt hrotate => ?_
    exact Nat.not_le.1 fun hlen => h (.inr ⟨hlt, hlen, c, hc, hrotate⟩)
  | ppop c =>
    refine (ppopDispatch_avoids ?_).map _
    rintro n id subid x rfl hx hst
    exact h ⟨x, hx, hst⟩
  | ipp c =>
    refine (ippDispatch_avoids ?_ ?_ ?_).map _
    · rintro n d rfl hd
      exact Nat.not_le.1 fun hge => h ⟨d, hd, hge⟩
    · rintro jobid x rfl hx hst
      exact h ⟨x, hx, hst⟩
    · rw [← Bool.not_eq_true]
      intro hc
      cases c with
      | acceptJobs target | rejectJobs target => exact h hc
      | _ => cases hc
  | reapchild now pid w =>
    exact reapchild_avoids (fun p _ hp => ht.findJob hp) now hev w
  | tick now =>
    exact (printerTick_avoids s).bind fun t _ => questionLookForWork_avoids now _

/-- In every run that keeps names and links apart from each other, these events and no others lead
astray. -/
theorem stray_iff {hist : List (Pprd × Event)} {s : Pprd}
    (run : Runs os Boot.Cleared (fun s ev => NamesKept s ev ∧ LinksKept s ev) hist s) {ev : Event}
    (hev : ev.possible) : (∃ e, step os s ev = .error e ∧ Stray e) ↔ ev.strays s := by
  have ht : Tidy s := Tidy.of_run (fun _ h => h) (fun _ _ h => h) run
  constructor
  · rintro ⟨e, he, hstray⟩
    by_contra h
    exact step_avoids ht hev h e he hstray
  · intro h
    exact ⟨.wildIndex, step_strays h, trivial⟩

/-- The job that a printer is at work on is canceled, and then to be held. -/
theorem stray_canceled :
    ∃ hist s, Runs (fun _ => true) Boot.Cleared (fun s ev => NamesKept s ev ∧ LinksKept s ev) hist s ∧
      ∃ e, step (fun _ => true) s (.ppop (.hold "A" 1 0)) = .error e ∧ Stray e := by
  obtain ⟨hist, s, run, hs⟩ := exists_runs (fun _ => true) Boot.Cleared
    (fun s ev => NamesKept s ev ∧ LinksKept s ev) startedBoot_wf startedBoot_cleared
    [.ppop (.cancel "A" 1 0)] (fun s => (jobNamed s "A" 1 0, (s.job 0).status))
    (a := (some 0, .cancel)) (by decide +kernel)
  obtain ⟨hnamed, hstatus⟩ := Prod.mk.inj hs
  have hpossible : Event.possible (.ppop (.hold "A" 1 0)) := trivial
  exact ⟨hist, s, run, (stray_iff run hpossible).2 ⟨0, hnamed, hstatus⟩⟩

end Ppr
