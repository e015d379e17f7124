import Ppr.Proof.Changes

/-!
# Starting printers: what the scans can do

`pprdrv_start()` starts the job or makes the printer starve, and nothing else; `printer_start()`,
`printer_look_for_work()` and the others come down to calls of it for a job that is waiting and a
printer that is idle.
-/

namespace Ppr

open Outcome Machine

variable {K : Act → Pprd → Prop} {os : ℕ → Bool}

/-- The printer may print the job as far as the group and the two masks are concerned. -/
def suitable (s : Pprd) (p : ℕ) (q : QEntry) : Prop :=
  destidHeld s q.destid = false ∧ q.notnow &&& destidPrinterBit s q.destid p = 0 ∧
    q.never &&& destidPrinterBit s q.destid p = 0

/-- The tables after a successful `fork()`, but for the group's last used member. -/
def launched (s : Pprd) (p x y : ℕ) : Pprd :=
  queuePJobNewStatus (printerNewStatus (pprdrvForked s p (s.job x)) p .printing) y (.printing p)

/-- What `pprdrv_start()` does. -/
theorem pprdrvStart_cases {s t : Pprd} {p x : ℕ} {r : StartResult}
    (h : pprdrvStart os s p x = .ok (t, r)) :
    (s.job x).status = .waiting ∧ s.prnStatus p = .idle ∧
      (r = .failed ∧ (t = starve s p ∨ t = starve { s with forks := s.forks + 1 } p) ∨
        r = .started ∧ s.activePrinters ≠ maxActive ∧ ∃ y, s.findJob (s.job x).key = some y ∧
          t = markLast (launched s p x y) p (s.job x).destid) := by
  unfold pprdrvStart at h
  dsimp only at h
  by_cases hw : (s.job x).status ≠ .waiting
  · rw [if_pos hw] at h
    cases h
  rw [if_neg hw] at h
  by_cases hi : s.prnStatus p ≠ .idle
  · rw [if_pos hi] at h
    cases h
  rw [if_neg hi] at h
  refine ⟨not_not.1 hw, not_not.1 hi, ?_⟩
  by_cases ha : s.activePrinters = maxActive
  · rw [if_pos ha] at h
    cases h
    exact .inl ⟨rfl, .inl rfl⟩
  rw [if_neg ha] at h
  split_ifs at h
  · cases h
    exact .inl ⟨rfl, .inl rfl⟩
  · cases h
    exact .inl ⟨rfl, .inr rfl⟩
  · obtain ⟨⟨u, y⟩, hu, hr⟩ := bind_eq_ok h
    cases hr
    unfold queueJobNewStatus at hu
    split at hu
    · cases hu
    · rename_i y' hy
      cases hu
      refine .inr ⟨rfl, ha, y, ?_, rfl⟩
      rw [← hy, Pprd.findJob, Pprd.findJob, (printerOnly_printerNewStatus _ _ _).queue]
      rfl

/-- What `printer_start()` does. -/
theorem printerStart_cases {s t : Pprd} {p x : ℕ} {r : StartResult}
    (h : printerStart os s p x = .ok (t, r)) :
    (s.job x).status = .waiting ∧
      (t = s ∧ r = .failed ∧ s.prnStatus p ≠ .idle ∨
        t = s ∧ r = .unsuitable ∧ ¬ suitable s p (s.job x) ∨
        suitable s p (s.job x) ∧ pprdrvStart os s p x = .ok (t, r)) := by
  unfold printerStart at h
  dsimp only at h
  by_cases hw : (s.job x).status ≠ .waiting
  · rw [if_pos hw] at h
    cases h
  rw [if_neg hw] at h
  refine ⟨not_not.1 hw, ?_⟩
  split_ifs at h with hi hh hn hv
  · cases h
    exact .inl ⟨rfl, rfl, hi⟩
  · cases h
    exact .inr (.inl ⟨rfl, rfl, fun hs => by simp [hs.1] at hh⟩)
  · cases h
    exact .inr (.inl ⟨rfl, rfl, fun hs => hn hs.2.1⟩)
  · cases h
    exact .inr (.inl ⟨rfl, rfl, fun hs => hv hs.2.2⟩)
  · exact .inr (.inr ⟨⟨by simpa using hh, not_not.1 hn, not_not.1 hv⟩, h⟩)

/-- A search for work found nothing suitable, or `pprdrv_start()` was called once. -/
def LookedForWork (os : ℕ → Bool) (s : Pprd) (p : ℕ) (t : Pprd) : Prop :=
  t = s ∧ (∀ x < s.queue.length, (s.job x).status = .waiting →
      serves s p (s.job x).destid → ¬ suitable s p (s.job x)) ∨
    ∃ x r, x < s.queue.length ∧ serves s p (s.job x).destid ∧ suitable s p (s.job x) ∧
      pprdrvStart os s p x = .ok (t, r)

/-- What `printer_look_for_work()` does. -/
theorem printerLookForWork_cases {s t : Pprd} {p : ℕ} (h : printerLookForWork os s p = .ok t) :
    s.prnStatus p = .idle ∧ LookedForWork os s p t := by
  unfold printerLookForWork at h
  by_cases hi : s.prnStatus p ≠ .idle
  · rw [if_pos hi] at h
    cases h
  rw [if_neg hi] at h
  refine ⟨not_not.1 hi, ?_⟩
  -- The state is still `s` with the entries before `x` passed over.
  refine forLoop_ensures (fun n x u => u = s ∧ x + n = s.queue.length ∧
      ∀ y < x, (s.job y).status = .waiting → serves s p (s.job y).destid →
        ¬ suitable s p (s.job y)) (LookedForWork os s p) ?_ ?_ s.queue.length 0 s
    ⟨rfl, by simp, by simp⟩ t h
  · rintro x u ⟨rfl, hx, hy⟩
    exact .inl ⟨rfl, by simpa using hx ▸ hy⟩
  · rintro n x u ⟨rfl, hx, hy⟩
    refine ensures_ite (fun hc => ?_) fun hc => ensures_ok ⟨rfl, by omega, fun y hyx => ?_⟩
    · refine Ensures.bind (Q := fun q => printerStart os u p x = .ok q) (fun q hq => hq) ?_
      rintro ⟨v, r⟩ hr
      obtain ⟨-, ⟨rfl, rfl, hn⟩ | ⟨rfl, rfl, hn⟩ | ⟨hs, hp⟩⟩ := printerStart_cases hr
      · exact absurd (not_not.1 hi) hn
      · refine ensures_ok ⟨rfl, by omega, fun y hyx => ?_⟩
        rcases Nat.lt_succ_iff_lt_or_eq.1 hyx with h | rfl
        · exact hy y h
        · exact fun _ _ => hn
      · have hne : r ≠ .unsuitable := by
          rcases pprdrvStart_cases hp with ⟨-, -, ⟨rfl, -⟩ | ⟨rfl, -⟩⟩ <;> simp
        refine ensures_ok ?_
        simp only [hne, ne_eq, not_false_eq_true, if_true]
        exact .inr ⟨x, r, by omega, hc.2, hs, hp⟩
    · rcases Nat.lt_succ_iff_lt_or_eq.1 hyx with h | rfl
      · exact hy y h
      · exact fun hw hv => absurd ⟨hw, hv⟩ hc

/-! ## As acts -/

theorem change_starve {s : Pprd} {p : ℕ} (hi : s.prnStatus p = .idle) (hp : knownPrinter s p) :
    Change (.starve p) s (starve s p) := by
  have h := printerOnly_printerNewStatus s p .starved
  have hd : s.prnStatus p ≠ .deleted := by simp [hi]
  exact {
    ok := ⟨hi, hp⟩
    queue := ⟨s.queue, .refl _, h.queue⟩
    printer := fun p' => by
      refine (core_printerNewStatus .starved hd p').trans ?_
      simp only [Act.printer?, Option.some.injEq, eq_comm (a := p)]
      rfl
    printerCount := h.printerCount
    group := fun g => congrArg (fun f => (f g).core) h.groups
    groupCount := h.groupCount
    active := h.activePrinters.trans (add_zero _).symm
    starving := congrArg (· + 1) h.starvingPrinters
    files := fun _ n => congrArg (fun f => (f n).isSome) h.files
    fifo := fun _ => h.fifo
    pprs := fun _ => h.pprs }

theorem core_pprdrvForked (s : Pprd) (p : ℕ) (q : QEntry) (p' : ℕ) :
    ((pprdrvForked s p q).printers p').core =
      if p' = p then { (s.printers p').core with jobPid := s.forks + 1, jobKey := q.key }
      else (s.printers p').core := by
  unfold pprdrvForked
  dsimp only
  rw [core_modifyPrinter]
  rfl

theorem change_start {s : Pprd} {p x y : ℕ} (hx : x < s.queue.length)
    (hw : (s.job x).status = .waiting) (hi : s.prnStatus p = .idle)
    (hy : s.findJob (s.job x).key = some y) (ha : s.activePrinters ≠ maxActive)
    (hp : knownPrinter s p) :
    Change (.start p x y (s.forks + 1)) s (launched s p x y) := by
  have h := printerOnly_printerNewStatus (pprdrvForked s p (s.job x)) p .printing
  have hf := core_pprdrvForked s p (s.job x)
  have hd : (pprdrvForked s p (s.job x)).prnStatus p ≠ .deleted := by
    have : (pprdrvForked s p (s.job x)).prnStatus p = s.prnStatus p :=
      (congrArg PrinterCore.status (hf p)).trans (by simp [Printer.core, Pprd.prnStatus])
    simp [this, hi]
  exact {
    ok := ⟨hx, hw, hy, hi, ha, by positivity, hp⟩
    queue := ⟨s.queue, .refl _, congrArg (List.modify · y _) h.queue⟩
    printer := fun p' => by
      refine (core_printerNewStatus .printing hd p').trans ?_
      rw [hf p']
      simp only [Act.printer?, Option.some.injEq, eq_comm (a := p)]
      split_ifs <;> rfl
    printerCount := h.printerCount
    group := fun g => congrArg (fun f => (f g).core) h.groups
    groupCount := h.groupCount
    active := h.activePrinters
    starving := h.starvingPrinters.trans (add_zero _).symm
    files := fun _ n =>
      (isSome_writeLine _ _ n _).trans (congrArg (fun f => (f n).isSome) h.files)
    fifo := fun _ => h.fifo
    pprs := fun _ => h.pprs }

theorem frame_markLast (s : Pprd) (p destid : ℕ) : Frame s (markLast s p destid) := by
  unfold markLast
  split_ifs
  · exact frame_modifyGroup s _ rfl
  · rfl

/-- Frame steps, starts and starving printers: all that a scan can do. -/
def Act.isStart : Act → Bool
  | .frame | .start .. | .starve _ => true
  | _ => false

/-- What a scan does. -/
abbrev Starts : Pprd → Pprd → Prop := Acts fun a _ => a.isStart

theorem Starts.of_frame {s t : Pprd} (h : Frame s t) : Starts s t := Trail.single rfl (.of_frame h)

theorem Starts.acts (hK : Base K) {s t : Pprd} (h : Starts s t) : Acts K s t := by
  refine h.weaken fun a s ha => ?_
  cases a <;> first | exact hK.frame s | exact hK.start .. | exact hK.starve .. | cases ha

theorem pprdrvStart_starts {s : Pprd} {p x : ℕ} (hx : x < s.queue.length)
    (hp : knownPrinter s p) : Ensures (pprdrvStart os s p x) fun r => Starts s r.1 := by
  rintro ⟨t, r⟩ h
  obtain ⟨hw, hi, ⟨-, rfl | rfl⟩ | ⟨-, ha, y, hy, rfl⟩⟩ := pprdrvStart_cases h
  · exact Trail.single rfl (change_starve hi hp)
  · refine (Starts.of_frame (t := { s with forks := s.forks + 1 }) { Frame.refl s with }).trans ?_
    exact Trail.single rfl (change_starve hi hp)
  · have h : Starts s (launched s p x y) := Trail.single rfl (change_start hx hw hi hy ha hp)
    exact h.trans (Starts.of_frame (frame_markLast _ _ _))

theorem printerStart_starts {s : Pprd} {p x : ℕ} (hx : x < s.queue.length)
    (hp : knownPrinter s p) : Ensures (printerStart os s p x) fun r => Starts s r.1 := by
  rintro ⟨t, r⟩ h
  obtain ⟨-, ⟨rfl, -⟩ | ⟨rfl, -⟩ | ⟨-, h⟩⟩ := printerStart_cases h
  · exact .refl _
  · exact .refl _
  · exact pprdrvStart_starts hx hp _ h

theorem printerLookForWork_starts {s : Pprd} {p : ℕ} (hp : knownPrinter s p) :
    Ensures (printerLookForWork os s p) (Starts s) := by
  intro t h
  obtain ⟨-, ⟨rfl, -⟩ | ⟨x, r, hx, -, -, h⟩⟩ := printerLookForWork_cases h
  · exact .refl _
  · exact pprdrvStart_starts hx hp _ h

theorem lookForWorkIfIdle_starts {s : Pprd} {p : ℕ} (hp : knownPrinter s p) :
    Ensures (lookForWorkIfIdle os s p) (Starts s) :=
  ensures_ite (fun _ => printerLookForWork_starts hp) fun _ => ensures_ok (.refl s)

/-! ## What a scan leaves alone -/

theorem QueueFrame.map_eq {l l' : List QEntry} (h : QueueFrame l l') {α : Type} (f : QEntry → α)
    (hf : ∀ q q', JobFrame q q' → f q' = f q) : l'.map f = l.map f := by
  refine List.ext_getElem (by simp [h.length]) fun x hx hx' => ?_
  have := h.job x
  simp only [List.length_map] at hx hx'
  simp only [List.getD_eq_getElem _ _ hx, List.getD_eq_getElem _ _ hx'] at this
  simpa using hf _ _ this

/-- The tables but for the printers: the keys, the groups and the counts. -/
structure SameTables (s t : Pprd) : Prop where
  keys : t.queue.map QEntry.key = s.queue.map QEntry.key
  printerCount : t.printerCount = s.printerCount
  groups : ∀ g, (t.groups g).core = (s.groups g).core
  groupCount : t.groupCount = s.groupCount
  fifo : t.fifo = s.fifo
  pprs : t.pprs = s.pprs
  files : ∀ n, (t.disk.queue n).isSome = (s.disk.queue n).isSome

theorem SameTables.trans {s t u : Pprd} (h : SameTables s t) (h' : SameTables t u) :
    SameTables s u where
  keys := h'.keys.trans h.keys
  printerCount := h'.printerCount.trans h.printerCount
  groups g := (h'.groups g).trans (h.groups g)
  groupCount := h'.groupCount.trans h.groupCount
  fifo := h'.fifo.trans h.fifo
  pprs := h'.pprs.trans h.pprs
  files n := (h'.files n).trans (h.files n)

theorem SameTables.length {s t : Pprd} (h : SameTables s t) : t.queue.length = s.queue.length := by
  simpa using congrArg List.length h.keys

theorem SameTables.knownPrinter {s t : Pprd} (h : SameTables s t) {p : ℕ}
    (hp : knownPrinter s p) : knownPrinter t p := by
  rcases hp with hp | ⟨g, hg⟩
  · exact .inl (h.printerCount ▸ hp)
  · have hm : (t.groups g).printers = (s.groups g).printers :=
      congrArg GroupCore.printers (h.groups g)
    exact .inr ⟨g, hm ▸ hg⟩

theorem Starts.sameTables {s t : Pprd} (h : Starts s t) : SameTables s t := by
  refine Trail.invariant (I := SameTables s) (fun a t u ht ha hc => ht.trans ?_) h
    ⟨rfl, rfl, fun _ => rfl, rfl, rfl, rfl, fun _ => rfl⟩
  obtain ⟨l, hl, hu⟩ := hc.queue
  have hkeys := hl.map_eq QEntry.key fun _ _ h => h.key
  have hne : a ≠ .ppr := by
    rintro rfl
    cases ha
  cases a with
  | frame | starve p =>
    exact ⟨hu ▸ hkeys, hc.printerCount, hc.group, hc.groupCount, hc.fifo hne, hc.pprs hne,
      hc.files hne⟩
  | start p x y pid =>
    refine ⟨?_, hc.printerCount, hc.group, hc.groupCount, hc.fifo hne, hc.pprs hne, hc.files hne⟩
    rw [hu]
    exact (List.map_modify_of_eq (f := fun q : QEntry => { q with status := .printing p })
      (fun _ => rfl) l y).trans hkeys
  | _ => cases ha

/-- Only idle printers are touched. -/
theorem Starts.core_eq {s t : Pprd} (h : Starts s t) {p : ℕ} (hp : s.prnStatus p ≠ .idle) :
    (t.printers p).core = (s.printers p).core := by
  refine Trail.invariant (I := fun t => (t.printers p).core = (s.printers p).core)
    (fun a t u ht ha hc => ?_) h rfl
  have hi : t.prnStatus p ≠ .idle := by
    rwa [show t.prnStatus p = s.prnStatus p from congrArg PrinterCore.status ht]
  have hok := hc.ok
  rw [hc.printer p, if_neg, ht]
  cases a with
  | frame => simp [Act.printer?]
  | start p' x y pid =>
    rintro ⟨⟩
    exact hi hok.2.2.2.1
  | starve p' =>
    rintro ⟨⟩
    exact hi hok.1
  | _ => cases ha

/-! ## The other scans -/

theorem groupLookForWork_starts (s : Pprd) (g : ℕ) :
    Ensures (groupLookForWork os s g) (Starts s) := by
  refine ensures_ite (fun _ => ?_) fun _ => ensures_error
  refine ensures_foldlM (fun t p hp ht => ?_) (.refl s)
  exact (lookForWorkIfIdle_starts (ht.sameTables.knownPrinter (.inr ⟨g, hp⟩))).mono
    fun u => ht.trans

theorem printerTryStart_starts {s : Pprd} {x : ℕ} (hx : x < s.queue.length) :
    Ensures (printerTryStart os s x) (Starts s) := by
  refine ensures_ite (fun _ => ensures_error) fun _ => ensures_ite (fun _ => ?_) fun hg => ?_
  · let cl := s.groups (destidToGindex (s.job x).destid)
    -- There is a round only if there are members, so that each round is about one of them.
    refine forLoop_ensures (fun n _ t => n ≤ cl.printers.length ∧ Starts s t) (Starts s)
      (fun _ _ h => h.2) (fun n i t ⟨hn, ht⟩ => ?_) cl.printers.length 0 s ⟨le_rfl, .refl s⟩
    generalize hy : (((if cl.rotate then cl.last else -1) + 1).toNat + i) % cl.printers.length = y
    have hlt : y < cl.printers.length := hy ▸ Nat.mod_lt _ (by omega)
    have hmem : cl.printers.getD y 0 ∈ cl.printers := by
      rw [List.getD_eq_getElem _ _ hlt]
      exact List.getElem_mem hlt
    refine Ensures.bind (printerStart_starts (ht.sameTables.length ▸ hx)
      (ht.sameTables.knownPrinter (.inr ⟨_, hmem⟩))) fun r hr => ensures_ok ?_
    have hu := ht.trans hr
    by_cases h : r.2 = .started
    · simpa [h] using hu
    · simpa [h] using ⟨by omega, hu⟩
  · refine Ensures.bind (printerStart_starts hx (.inl ?_)) fun r hr => ensures_ok hr
    simpa [destidIsGroup] using hg

end Ppr
