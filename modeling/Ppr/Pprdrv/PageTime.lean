import Ppr.Pprdrv.Writemon
import Ppr.Lib.Outcome

/-!
# The time for a page

A run of calls is measured by what they and their answers are: whether the printer is known to be
on-line, how long it has been since the last page drop, and which minutes have been announced for each
operation.  The variables of `pprdrv_writemon.c` keep these, and so the limit is observed whenever a
sleep time is asked for before the caller's own time is over.
-/

namespace Ppr.Writemon

/-! ## The measure -/

/-- An operation: when its sleep time was first asked for, and the minutes announced, the last ones
first. -/
structure Watch where
  asked : Option Timeval := none
  said : List ℤ := []
  deriving DecidableEq

structure Meter where
  /-- Whether the printer is on-line, once that has been reported. -/
  known : Option Bool := none
  /-- The time of the last call, in microseconds. -/
  last : ℤ
  /-- How long the printer has been on-line since the last page drop. -/
  total : ℤ := 0
  /-- The operations that have been started. -/
  watches : List Watch := []
  /-- The minutes that were announced for the operations that are over. -/
  finished : List (List ℤ) := []
  deriving DecidableEq

/-- Time passes. -/
def Meter.advance (m : Meter) (now : ℤ) : Meter :=
  { m with
    last := now
    total := m.total + if m.known = some true then now - m.last else 0 }

/-- A sleep time is asked for. -/
def Watch.ask (w : Watch) (now : Timeval) (a : Answer) : Watch where
  asked := some (w.asked.getD now)
  said := (a.stalled.map (·.minutes)).reverse ++ w.said

def Meter.note (m : Meter) (e : Event) (a : Answer) : Meter :=
  match e.call with
  | .start _ => { m with watches := {} :: m.watches }
  | .sleepTime _ =>
    { m with watches := (m.watches.take 1).map (·.ask e.now a) ++ m.watches.drop 1 }
  | .unstalled _ =>
    { m with
      watches := m.watches.drop 1
      finished := (m.watches.take 1).map (·.said) ++ m.finished }
  | .pagedrop => { m with total := 0 }
  | .online online => { m with known := some online }

structure History where
  state : State
  meter : Meter
  deriving DecidableEq

def History.step (limit : ℤ) (h : History) (e : Event) : Except Stop History := do
  let (s, a) ← Writemon.step limit h.state e
  return ⟨s, (h.meter.advance e.now.micros).note e a⟩

/-- The calls `es`, after `writemon_init()` at the time `t`. -/
def run (limit t : ℤ) (es : List Event) : Except Stop History :=
  es.foldlM (History.step limit) ⟨writemonInit, { last := t }⟩

/-- The clock is one that does not go back. -/
def Clocked : ℤ → List Event → Prop
  | _, [] => True
  | t, e :: es => e.now.Valid ∧ t ≤ e.now.micros ∧ Clocked e.now.micros es

/-- The limit is exceeded. -/
def Meter.Exceeds (m : Meter) (limit : ℤ) : Prop :=
  0 < limit ∧ m.known = some true ∧ limit * 1000000 < m.total

/-! ## The variables keep it -/

structure Watched (last : ℤ) (level : Level) (w : Watch) : Prop where
  asked : w.asked = level.startTime
  valid : ∀ t ∈ level.startTime, t.Valid ∧ t.micros ≤ last
  most : ∀ minutes ∈ w.said, minutes ≤ level.minutesAnnounced
  past : level.minutesAnnounced ≤ level.startTime.elim 0 fun t => (last - t.micros) / 60000000
  increasing : w.said.Pairwise (· > ·)

structure Metered (s : State) (m : Meter) : Prop where
  watched : List.Forall₂ (Watched m.last) s.stack m.watches
  finished : ∀ said ∈ m.finished, said.Pairwise (· > ·)
  known : m.known = if s.onlineValid then some s.online else none
  loose : s.accumulator.Loose
  valid : s.unaccumulatedStart.Valid
  total : m.total = s.accumulator.micros +
    if m.known = some true then m.last - s.unaccumulatedStart.micros else 0

theorem metered_init (t : ℤ) : Metered writemonInit { last := t } where
  watched := .nil
  finished := nofun
  known := rfl
  loose := Timeval.zero_valid.loose
  valid := Timeval.zero_valid
  total := rfl

theorem Watched.later {last now : ℤ} (hle : last ≤ now) {level : Level} {w : Watch}
    (h : Watched last level w) : Watched now level w where
  asked := h.asked
  valid t ht := ⟨(h.valid t ht).1, (h.valid t ht).2.trans hle⟩
  most := h.most
  past := by
    have := h.past
    cases hstart : level.startTime with
    | none => rwa [hstart] at this
    | some t =>
      rw [hstart] at this
      simp only [Option.elim_some] at this ⊢
      omega
  increasing := h.increasing

theorem Metered.advance {s : State} {m : Meter} (h : Metered s m) {now : ℤ} (hle : m.last ≤ now) :
    Metered s (m.advance now) where
  watched := h.watched.imp fun _ _ => Watched.later hle
  finished := h.finished
  known := h.known
  loose := h.loose
  valid := h.valid
  total := by
    have := h.total
    unfold Meter.advance
    split_ifs at this ⊢ <;> dsimp only <;> omega

section Calls

variable {s : State} {m : Meter} {now : Timeval}

theorem Metered.start (h : Metered s m) (operation : List Byte) :
    Metered { s with stack := { rememberedOperation := operation } :: s.stack }
      { m with watches := {} :: m.watches } where
  watched := .cons ⟨rfl, nofun, nofun, le_rfl, .nil⟩ h.watched
  finished := h.finished
  known := h.known
  loose := h.loose
  valid := h.valid
  total := h.total

theorem Metered.unstalled (h : Metered s m) {level : Level} {below : List Level}
    (hs : s.stack = level :: below) :
    Metered { s with stack := below }
      { m with
        watches := m.watches.drop 1
        finished := (m.watches.take 1).map (·.said) ++ m.finished } := by
  have hwatched := h.watched
  rw [hs] at hwatched
  cases hm : m.watches with
  | nil =>
    rw [hm] at hwatched
    cases hwatched
  | cons w ws =>
    rw [hm] at hwatched
    obtain ⟨hw, hws⟩ := List.forall₂_cons.mp hwatched
    refine ⟨hws, ?_, h.known, h.loose, h.valid, h.total⟩
    intro said hsaid
    rcases List.mem_cons.mp hsaid with rfl | hsaid
    · exact hw.increasing
    · exact h.finished said hsaid

theorem Metered.pagedrop (h : Metered s m) (hn : now.Valid) (hlast : m.last = now.micros) :
    Metered (writemonPagedrop now s) { m with total := 0 } where
  watched := h.watched
  finished := h.finished
  known := h.known
  loose := Timeval.zero_valid.loose
  valid := hn
  total := by
    change 0 = Timeval.zero.micros + if m.known = some true then m.last - now.micros else 0
    rw [hlast, sub_self, ite_self, Timeval.micros_zero]
    rfl

/-- Being on-line is added up when it ends; until then its start is remembered. -/
theorem Metered.online (h : Metered s m) (hn : now.Valid) (hlast : m.last = now.micros)
    (online : Bool) : Metered (writemonOnline online now s) { m with known := some online } := by
  obtain ⟨hwatched, hfinished, hknown, hloose, hvalid, htotal⟩ := h
  unfold writemonOnline
  by_cases hchange : online ≠ s.online ∨ ¬ s.onlineValid
  · rw [if_pos hchange]
    cases online with
    | true =>
      refine ⟨hwatched, hfinished, rfl, hloose, hn, ?_⟩
      have hoff : m.known ≠ some true := by
        rw [hknown]
        intro hon
        split_ifs at hon with hv
        rcases hchange with hne | hne
        · exact hne (Option.some.inj hon).symm
        · exact hne hv
      rw [if_neg hoff, add_zero] at htotal
      change m.total = s.accumulator.micros + if some true = some true then m.last - now.micros else 0
      rw [if_pos rfl, hlast, htotal, sub_self, add_zero]
    | false =>
      by_cases hv : s.onlineValid
      · have hon : s.online = true := by
          rcases hchange with hne | hne
          · exact (Bool.eq_not_of_ne hne.symm)
          · exact absurd hv hne
        have hk : m.known = some true := by rw [hknown, if_pos hv, hon]
        rw [if_pos hk] at htotal
        simp only [hv, if_true, Bool.false_eq_true, if_false]
        refine ⟨hwatched, hfinished, rfl,
          Timeval.add_loose hloose (Timeval.sub_valid hn hvalid.loose), hvalid, ?_⟩
        change m.total = (s.accumulator.add (now.sub s.unaccumulatedStart)).micros + 0
        rw [Timeval.micros_add, Timeval.micros_sub, htotal, hlast, add_zero]
      · have hk : m.known = none := by rw [hknown, if_neg hv]
        rw [if_neg (by rw [hk]; exact nofun)] at htotal
        simp only [hv, if_false, Bool.false_eq_true]
        exact ⟨hwatched, hfinished, rfl, hloose, hvalid, htotal⟩
  · obtain ⟨heq, hv⟩ := not_or.mp hchange
    rw [if_neg hchange]
    have hsame : m.known = some online := by
      rw [hknown, if_pos (not_not.mp hv), not_not.mp heq]
    refine ⟨hwatched, hfinished, hsame ▸ hknown, hloose, hvalid, ?_⟩
    rw [hsame] at htotal
    exact htotal

end Calls

/-! ## The sleep time -/

section Sleep

variable {s : State} {m : Meter} {now : Timeval}

theorem timeOfExpiration_valid (hv : s.unaccumulatedStart.Valid) (hl : s.accumulator.Loose)
    (limit : ℤ) : (timeOfExpiration limit s).Valid :=
  Timeval.sub_valid (Timeval.add_valid rfl hv) hl

theorem micros_timeOfExpiration (limit : ℤ) (s : State) : (timeOfExpiration limit s).micros =
    limit * 1000000 + s.unaccumulatedStart.micros - s.accumulator.micros := by
  rw [timeOfExpiration, Timeval.micros_sub, Timeval.micros_add]
  unfold Timeval.micros
  ring

theorem Metered.known_iff (h : Metered s m) :
    m.known = some true ↔ s.onlineValid = true ∧ s.online = true := by
  rw [h.known]
  split_ifs with hv
  · rw [Option.some.injEq, hv, eq_self_iff_true, true_and]
  · simp [hv]

/-- While the printer is on-line the limit expires when what is left of it has passed. -/
theorem Metered.expires (h : Metered s m) (hlast : m.last = now.micros)
    (hon : m.known = some true) (limit : ℤ) :
    (timeOfExpiration limit s).micros = now.micros + (limit * 1000000 - m.total) := by
  have htotal := h.total
  rw [if_pos hon] at htotal
  rw [micros_timeOfExpiration, htotal, hlast]
  ring

theorem Metered.exceeds_iff (h : Metered s m) (hn : now.Valid) (hlast : m.last = now.micros)
    (limit : ℤ) : m.Exceeds limit ↔
      (0 < limit ∧ s.onlineValid ∧ s.online) ∧ 0 < now.cmp (timeOfExpiration limit s) := by
  rw [Timeval.cmp_pos hn (timeOfExpiration_valid h.valid h.loose limit), Meter.Exceeds,
    h.known_iff]
  constructor
  · rintro ⟨hlimit, hon, hover⟩
    refine ⟨⟨hlimit, hon⟩, ?_⟩
    rw [h.expires hlast (h.known_iff.mpr hon)]
    omega
  · rintro ⟨⟨hlimit, hon⟩, hover⟩
    rw [h.expires hlast (h.known_iff.mpr hon)] at hover
    exact ⟨hlimit, hon, by omega⟩

theorem observeLimit_exceeds (h : Metered s m) (hn : now.Valid) (hlast : m.last = now.micros)
    {limit : ℤ} (hover : m.Exceeds limit) (wake : Timeval) :
    observeLimit limit now wake s = .error .pageTimeLimit := by
  obtain ⟨hobs, hover⟩ := (h.exceeds_iff hn hlast limit).mp hover
  rw [observeLimit, if_pos hobs, if_pos hover]

/-- The time to wake up at is not put off, and not past the time the limit expires. -/
theorem observeLimit_within (h : Metered s m) (hn : now.Valid) (hlast : m.last = now.micros)
    {limit : ℤ} (hover : ¬ m.Exceeds limit) {wake : Timeval} (hw : wake.Valid)
    (hle : now.micros ≤ wake.micros) :
    ∃ wake', observeLimit limit now wake s = .ok wake' ∧ wake'.Valid ∧
      now.micros ≤ wake'.micros ∧ wake'.micros ≤ wake.micros ∧
      (0 < limit → m.known = some true →
        wake'.micros ≤ now.micros + (limit * 1000000 - m.total)) := by
  have hv := timeOfExpiration_valid h.valid h.loose limit
  rw [h.exceeds_iff hn hlast] at hover
  rw [observeLimit]
  by_cases hobs : 0 < limit ∧ s.onlineValid ∧ s.online
  · have hexp := h.expires hlast (h.known_iff.mpr hobs.2) limit
    have hnot : ¬ 0 < now.cmp (timeOfExpiration limit s) := fun hc => hover ⟨hobs, hc⟩
    rw [if_pos hobs, if_neg hnot]
    rw [Timeval.cmp_pos hn hv, not_lt] at hnot
    by_cases hsoon : (timeOfExpiration limit s).cmp wake < 0
    · rw [if_pos hsoon]
      exact ⟨_, rfl, hv, hnot, ((Timeval.cmp_neg hv hw).mp hsoon).le, fun _ _ => hexp.le⟩
    · rw [if_neg hsoon]
      rw [Timeval.cmp_neg hv hw, not_lt] at hsoon
      exact ⟨_, rfl, hw, hle, le_rfl, fun _ _ => hsoon.trans hexp.le⟩
  · rw [if_neg hobs]
    exact ⟨_, rfl, hw, hle, le_rfl, fun hlimit hon => absurd ⟨hlimit, h.known_iff.mp hon⟩ hobs⟩

/-- The sooner of the next announcement and, if there is one, the end of the caller's time. -/
theorem soonest {timeout : ℤ} {mine yours : Timeval} (hm : mine.Valid) (hy : yours.Valid)
    {t : ℤ} (htm : t ≤ mine.micros) (hty : 0 < timeout → t ≤ yours.micros) {wake : Timeval}
    (hwake : wake = if timeout < 1 ∨ mine.cmp yours < 0 then mine else yours) :
    wake.Valid ∧ t ≤ wake.micros ∧ wake.micros ≤ mine.micros ∧
      (0 < timeout → wake.micros ≤ yours.micros) := by
  by_cases hfirst : timeout < 1 ∨ mine.cmp yours < 0
  · rw [if_pos hfirst] at hwake
    rw [Timeval.cmp_neg hm hy] at hfirst
    subst hwake
    exact ⟨hm, htm, le_rfl, fun ht => by omega⟩
  · rw [if_neg hfirst] at hwake
    rw [Timeval.cmp_neg hm hy] at hfirst
    subst hwake
    obtain ⟨ht, hle⟩ := not_or.mp hfirst
    exact ⟨hy, hty (by omega), not_lt.mp hle, fun _ => le_rfl⟩

/-- The caller's own time is over. -/
def TimedOut (timeout : ℤ) (start now : Timeval) : Prop :=
  0 < timeout ∧ start.micros + timeout * 1000000 ≤ now.micros

/-- What a time to sleep may be at most: up to the end of the caller's time, to the end of the present
minute and to the time the limit expires. -/
structure Sleeps (limit timeout : ℤ) (m : Meter) (start now sleep : Timeval) : Prop where
  valid : sleep.Valid
  nonneg : 0 ≤ sleep.sec
  caller : 0 < timeout → now.micros + sleep.micros ≤ start.micros + timeout * 1000000
  minute : now.micros + sleep.micros ≤ start.micros + (minutesSince start now + 1) * 60000000
  expires : 0 < limit → m.known = some true → m.total + sleep.micros ≤ limit * 1000000

/-- An entry after the sleep time has been asked for. -/
def Level.asked (level : Level) (start : Timeval) (minutes : ℤ) : Level :=
  { level with startTime := some start, minutesAnnounced := minutes }

theorem sleepTime_timedOut {limit timeout : ℤ} {level : Level} {below : List Level}
    (hs : s.stack = level :: below) {start : Timeval} (hstart : level.startTime.getD now = start)
    (hsv : start.Valid) (hn : now.Valid) (hout : TimedOut timeout start now) :
    writemonSleepTime limit timeout now s =
      .ok ({ s with stack := level.asked start level.minutesAnnounced :: below }, {}) := by
  have hcmp : 0 < timeout ∧ (start.addSec timeout).cmp now ≤ 0 := by
    refine ⟨hout.1, (Timeval.cmp_nonpos (hsv.addSec _) hn).mpr ?_⟩
    rw [Timeval.micros_addSec]
    exact hout.2
  unfold writemonSleepTime
  rw [hs]
  dsimp only
  rw [hstart, if_pos hcmp]
  rfl

theorem sleepTime_waiting (h : Metered s m) (hlast : m.last = now.micros) {limit timeout : ℤ}
    {level : Level} {below : List Level} (hs : s.stack = level :: below) {start : Timeval}
    (hstart : level.startTime.getD now = start) (hsv : start.Valid) (hn : now.Valid)
    (hle : start.micros ≤ now.micros) (hmax : level.minutesAnnounced ≤ minutesSince start now)
    (hout : ¬ TimedOut timeout start now) :
    (m.Exceeds limit → writemonSleepTime limit timeout now s = .error .pageTimeLimit) ∧
    (¬ m.Exceeds limit → ∃ sleep made, writemonSleepTime limit timeout now s =
        .ok ({ s with stack := level.asked start (minutesSince start now) :: below },
          { sleep := some sleep, stalled := made }) ∧
      Sleeps limit timeout m start now sleep ∧
      (made = [] ∨ level.minutesAnnounced < minutesSince start now ∧
        made.map (·.minutes) = [minutesSince start now])) := by
  have hyours := Timeval.micros_addSec start timeout
  have hcmp : ¬ (0 < timeout ∧ (start.addSec timeout).cmp now ≤ 0) := by
    rw [Timeval.cmp_nonpos (hsv.addSec _) hn, hyours]
    exact hout
  have hmax' : ({ level with startTime := some start } : Level).minutesAnnounced ≤
    minutesSince start now := hmax
  obtain ⟨made, hloop, hmade⟩ := announceLoop_ok hsv hn hle hmax' (now.sec - start.sec).toNat
  have hmine : (nextTime start (level.asked start (minutesSince start now))).micros =
      start.micros + (minutesSince start now + 1) * 60000000 := by
    rw [nextTime, Timeval.micros_addSec, Level.asked]
    ring
  have hfuture : now.micros ≤ start.micros + (minutesSince start now + 1) * 60000000 := by
    unfold minutesSince
    omega
  generalize hw : (if timeout < 1 ∨ (nextTime start (level.asked start (minutesSince start now))).cmp
    (start.addSec timeout) < 0 then nextTime start (level.asked start (minutesSince start now))
    else start.addSec timeout) = wake
  obtain ⟨hwv, hnw, hwm, hwy⟩ := soonest (hsv.addSec _) (hsv.addSec timeout) (hmine ▸ hfuture)
    (fun ht => not_lt.mp fun hc => hout ⟨ht, hyours ▸ hc.le⟩) hw.symm
  replace hwm := hwm.trans hmine.le
  have hdo : writemonSleepTime limit timeout now s = (do
      let wake ← observeLimit limit now wake s
      let sleep := wake.sub now
      if sleep.sec < 0 ∨ sleep.sec = 0 ∧ sleep.usec < 0 then .error .negativeSleep
      else return ({ s with stack := level.asked start (minutesSince start now) :: below },
        { sleep := some sleep, stalled := made })) := by
    rw [← hw]
    unfold writemonSleepTime
    rw [hs]
    dsimp only
    rw [hstart, if_neg hcmp, hloop]
    rfl
  refine ⟨fun hover => ?_, fun hover => ?_⟩
  · rw [hdo, observeLimit_exceeds h hn hlast hover]
    rfl
  · obtain ⟨wake', hobs, hv', hn', hle', hexp⟩ := observeLimit_within h hn hlast hover hwv hnw
    have hsub := Timeval.micros_sub wake' now
    have hsleep := Timeval.sub_valid hv' hn.loose
    have hbounds := Timeval.sec_bounds hsleep
    have hnonneg : ¬ ((wake'.sub now).sec < 0 ∨ (wake'.sub now).sec = 0 ∧ (wake'.sub now).usec < 0) := by
      obtain ⟨h₀, -⟩ := hsleep
      omega
    refine ⟨wake'.sub now, made, ?_, ⟨hsleep, by omega, fun ht => ?_, ?_, fun hl hk => ?_⟩, hmade⟩
    · rw [hdo, hobs]
      exact if_neg hnonneg
    · have := hwy ht
      omega
    · omega
    · have := hexp hl hk
      omega

end Sleep

/-! ## Runs -/

/-- An operation began when its sleep time was first asked for. -/
theorem Watched.began {now start : Timeval} (hn : now.Valid) {level : Level} {w : Watch}
    (h : Watched now.micros level w) (hstart : level.startTime.getD now = start) :
    start.Valid ∧ start.micros ≤ now.micros ∧ level.minutesAnnounced ≤ minutesSince start now := by
  have hpast := h.past
  cases hs : level.startTime with
  | none =>
    rw [hs, Option.getD_none] at hstart
    rw [hs, Option.elim_none] at hpast
    subst hstart
    refine ⟨hn, le_rfl, ?_⟩
    rwa [minutesSince, sub_self, Int.zero_ediv]
  | some t =>
    rw [hs, Option.getD_some] at hstart
    rw [hs, Option.elim_some] at hpast
    subst hstart
    exact ⟨(h.valid t hs).1, (h.valid t hs).2, hpast⟩

theorem Watched.ask {now start : Timeval} (hn : now.Valid) {level : Level} {w : Watch}
    (h : Watched now.micros level w) (hstart : level.startTime.getD now = start) {minutes : ℤ}
    (hle : level.minutesAnnounced ≤ minutes) (hpast : minutes ≤ minutesSince start now) {a : Answer}
    (ha : a.stalled = [] ∨
      level.minutesAnnounced < minutes ∧ a.stalled.map (·.minutes) = [minutes]) :
    Watched now.micros (level.asked start minutes) (w.ask now a) := by
  obtain ⟨hsv, hsle, -⟩ := h.began hn hstart
  have hsaid : ∀ old ∈ w.said, old ≤ minutes := fun old hold => (h.most old hold).trans hle
  refine ⟨?_, ?_, ?_, hpast, ?_⟩
  · change some (w.asked.getD now) = some start
    rw [h.asked, hstart]
  · rintro t ht
    cases Option.mem_some.mp ht
    exact ⟨hsv, hsle⟩
  · change ∀ old ∈ (a.stalled.map (·.minutes)).reverse ++ w.said, old ≤ minutes
    rcases ha with ha | ⟨-, ha⟩
    · rwa [ha]
    · rw [ha]
      exact List.forall_mem_cons.mpr ⟨le_rfl, hsaid⟩
  · change ((a.stalled.map (·.minutes)).reverse ++ w.said).Pairwise (· > ·)
    rcases ha with ha | ⟨hlt, ha⟩
    · rw [ha]
      exact h.increasing
    · rw [ha]
      exact List.pairwise_cons.mpr ⟨fun old hold => (h.most old hold).trans_lt hlt, h.increasing⟩

theorem Metered.sleepTime {s s' : State} {m : Meter} (h : Metered s m) {now : Timeval}
    (hn : now.Valid) (hlast : m.last = now.micros) {limit timeout : ℤ} {a : Answer}
    (hs : writemonSleepTime limit timeout now s = .ok (s', a)) :
    Metered s' { m with watches := (m.watches.take 1).map (·.ask now a) ++ m.watches.drop 1 } := by
  cases hstack : s.stack with
  | nil =>
    unfold writemonSleepTime at hs
    rw [hstack] at hs
    cases hs
  | cons level below =>
    have hwatched := h.watched
    rw [hstack] at hwatched
    cases hm : m.watches with
    | nil =>
      rw [hm] at hwatched
      cases hwatched
    | cons w ws =>
      rw [hm, List.forall₂_cons, hlast] at hwatched
      obtain ⟨hw, hws⟩ := hwatched
      obtain ⟨hsv, hle, hmax⟩ := hw.began hn rfl
      -- it is enough to follow the operation that is watched
      suffices ∃ minutes, s' = { s with stack := level.asked (level.startTime.getD now) minutes :: below } ∧
          level.minutesAnnounced ≤ minutes ∧ minutes ≤ minutesSince (level.startTime.getD now) now ∧
          (a.stalled = [] ∨
            level.minutesAnnounced < minutes ∧ a.stalled.map (·.minutes) = [minutes]) by
        obtain ⟨minutes, rfl, hmin, hpast, ha⟩ := this
        refine ⟨.cons ?_ ?_, h.finished, h.known, h.loose, h.valid, h.total⟩
        · rw [hlast]
          exact hw.ask hn rfl hmin hpast ha
        · rw [hlast]
          exact hws
      by_cases hout : TimedOut timeout (level.startTime.getD now) now
      · rw [sleepTime_timedOut hstack rfl hsv hn hout] at hs
        cases hs
        exact ⟨level.minutesAnnounced, rfl, le_rfl, hmax, Or.inl rfl⟩
      · obtain ⟨hover, hwithin⟩ :=
          (sleepTime_waiting h hlast hstack rfl hsv hn hle hmax hout : (m.Exceeds limit → _) ∧ _)
        by_cases hx : m.Exceeds limit
        · rw [hover hx] at hs
          cases hs
        · obtain ⟨sleep, made, heq, -, hmade⟩ := hwithin hx
          rw [heq] at hs
          cases hs
          refine ⟨_, rfl, hmax, le_rfl, ?_⟩
          rcases hmade with hmade | hmade
          · exact Or.inl hmade
          · exact Or.inr hmade

theorem Metered.step {h h' : History} (hm : Metered h.state h.meter) {limit : ℤ} {e : Event}
    (hn : e.now.Valid) (hle : h.meter.last ≤ e.now.micros) (hs : h.step limit e = .ok h') :
    Metered h'.state h'.meter ∧ h'.meter.last = e.now.micros := by
  have hm := hm.advance hle
  obtain ⟨⟨s', a⟩, hstep, hh⟩ := Outcome.bind_eq_ok hs
  cases hh
  obtain ⟨now, call⟩ := e
  cases call with
  | start operation =>
    obtain ⟨s, hstart, heq⟩ := Outcome.bind_eq_ok hstep
    cases heq
    rw [writemonStart_ok hstart]
    exact ⟨hm.start operation, rfl⟩
  | sleepTime timeout => exact ⟨hm.sleepTime hn rfl hstep, rfl⟩
  | unstalled operation =>
    obtain ⟨s, hover, heq⟩ := Outcome.bind_eq_ok hstep
    cases heq
    obtain ⟨level, hstack, heq⟩ := writemonUnstalled_ok hover
    rw [heq]
    exact ⟨hm.unstalled hstack, rfl⟩
  | pagedrop =>
    cases hstep
    exact ⟨hm.pagedrop hn rfl, rfl⟩
  | online online =>
    cases hstep
    exact ⟨hm.online hn rfl online, rfl⟩

theorem Metered.run {limit : ℤ} {es : List Event} {h h' : History} (hm : Metered h.state h.meter)
    (hc : Clocked h.meter.last es) (hr : es.foldlM (History.step limit) h = .ok h') :
    Metered h'.state h'.meter := by
  induction es generalizing h with
  | nil =>
    cases hr
    exact hm
  | cons e es ih =>
    obtain ⟨h₁, hs, hr⟩ := Outcome.bind_eq_ok hr
    obtain ⟨hn, hle, hc⟩ := hc
    obtain ⟨hm₁, hlast⟩ := hm.step hn hle hs
    exact ih hm₁ (hlast ▸ hc) hr

theorem Metered.increasing {s : State} {m : Meter} (h : Metered s m) :
    ∀ w ∈ m.watches, w.said.Pairwise (· > ·) :=
  ((List.forall₂_and_left ..).mp
    (h.watched.flip.imp fun _ _ hw => ⟨hw.increasing, trivial⟩ : List.Forall₂
      (fun w _ => w.said.Pairwise (· > ·) ∧ True) m.watches s.stack)).1

/-- The time of the last call is not after the next one. -/
theorem last_le {limit : ℤ} {es : List Event} {h h' : History} {e : Event}
    (hc : Clocked h.meter.last (es ++ [e])) (hr : es.foldlM (History.step limit) h = .ok h') :
    Clocked h.meter.last es ∧ e.now.Valid ∧ h'.meter.last ≤ e.now.micros := by
  induction es generalizing h with
  | nil =>
    cases hr
    exact ⟨trivial, hc.1, hc.2.1⟩
  | cons e' es ih =>
    obtain ⟨h₁, hs, hr⟩ := Outcome.bind_eq_ok hr
    obtain ⟨hn, hle, hc⟩ := hc
    have hlast : h₁.meter.last = e'.now.micros := by
      obtain ⟨⟨s', a⟩, -, hh⟩ := Outcome.bind_eq_ok hs
      cases hh
      unfold Meter.note
      split <;> rfl
    obtain ⟨hc, hlast'⟩ := ih (hlast ▸ hc) hr
    exact ⟨⟨hn, hle, hlast ▸ hc⟩, hlast'⟩

/-- In every run of calls, the minutes announced for an operation increase.  Whenever a sleep time is
asked for: if the caller's own time is over, that is all that is said; otherwise the job is ended if,
and only if, the printer is known to be on-line and has been so for more than the limit since the last
page drop, and a time to sleep is within all of its bounds. -/
theorem limit_observed {limit t timeout : ℤ} {es : List Event} {now : Timeval}
    (hc : Clocked t (es ++ [⟨now, .sleepTime timeout⟩])) {h : History} (hr : run limit t es = .ok h) :
    (∀ said ∈ h.meter.watches.map (·.said) ++ h.meter.finished, said.Pairwise (· > ·)) ∧
    ∀ w ws, h.meter.watches = w :: ws →
      let m := h.meter.advance now.micros
      let start := w.asked.getD now
      (TimedOut timeout start now →
        ∃ s, writemonSleepTime limit timeout now h.state = .ok (s, {})) ∧
      (¬ TimedOut timeout start now →
        (writemonSleepTime limit timeout now h.state = .error .pageTimeLimit ↔ m.Exceeds limit) ∧
        (¬ m.Exceeds limit → ∃ s sleep made,
          writemonSleepTime limit timeout now h.state =
            .ok (s, { sleep := some sleep, stalled := made }) ∧
          Sleeps limit timeout m start now sleep)) := by
  obtain ⟨hc, hn, hle⟩ := last_le (h := ⟨writemonInit, { last := t }⟩) hc hr
  have hm : Metered h.state h.meter :=
    Metered.run (h := ⟨writemonInit, { last := t }⟩) (metered_init t) hc hr
  refine ⟨fun said hsaid => ?_, fun w ws hw => ?_⟩
  · rcases List.mem_append.mp hsaid with hsaid | hsaid
    · obtain ⟨w, hw, rfl⟩ := List.mem_map.mp hsaid
      exact hm.increasing w hw
    · exact hm.finished said hsaid
  · have hma := hm.advance hle
    have hwatched := hma.watched
    cases hstack : h.state.stack with
    | nil =>
      rw [hstack] at hwatched
      change List.Forall₂ _ _ h.meter.watches at hwatched
      rw [hw] at hwatched
      cases hwatched
    | cons level below =>
      rw [hstack] at hwatched
      change List.Forall₂ _ _ h.meter.watches at hwatched
      rw [hw, List.forall₂_cons] at hwatched
      obtain ⟨hwl, -⟩ := hwatched
      change Watched now.micros level w at hwl
      rw [hwl.asked]
      obtain ⟨hsv, hsle, hmax⟩ := hwl.began hn rfl
      refine ⟨fun hout => ⟨_, sleepTime_timedOut hstack rfl hsv hn hout⟩, fun hout => ?_⟩
      obtain ⟨hover, hwithin⟩ :=
        (sleepTime_waiting hma rfl hstack rfl hsv hn hsle hmax hout :
          ((h.meter.advance now.micros).Exceeds limit → _) ∧ _)
      refine ⟨⟨fun herr => ?_, hover⟩, fun hx => ?_⟩
      · by_contra hx
        obtain ⟨sleep, made, heq, -⟩ := hwithin hx
        rw [heq] at herr
        cases herr
      · obtain ⟨sleep, made, heq, hsleep, -⟩ := hwithin hx
        exact ⟨_, sleep, made, heq, hsleep⟩

/-- A write to a printer that is on-line has been waited for. -/
def writing : List Event :=
  [⟨.zero, .start (ascii "WRITE")⟩, ⟨.zero, .online true⟩, ⟨.zero, .sleepTime 0⟩]

/-- What has been noted of it. -/
def written : History where
  state := { stack := [⟨ascii "WRITE", some .zero, 0⟩], onlineValid := true, online := true }
  meter := { known := some true, last := 0, watches := [{ asked := some .zero }] }

theorem limit_observed_writing : Clocked 0 (writing ++ [⟨⟨100, 0⟩, .sleepTime 0⟩]) ∧
    run 5 0 writing = .ok written ∧ written.meter.watches = [{ asked := some .zero }] ∧
    ¬ TimedOut 0 .zero ⟨100, 0⟩ ∧
    (writemonSleepTime 5 0 ⟨100, 0⟩ written.state = .error .pageTimeLimit ↔
      (written.meter.advance 100000000).Exceeds 5) := by
  have hc : Clocked 0 (writing ++ [⟨⟨100, 0⟩, .sleepTime 0⟩]) := by
    simp [writing, Clocked, Timeval.Valid, Timeval.zero, Timeval.micros]
  have hout : ¬ TimedOut 0 .zero ⟨100, 0⟩ := fun h => absurd h.1 (lt_irrefl 0)
  have hr : run 5 0 writing = .ok written := rfl
  exact ⟨hc, hr, rfl, hout, (((limit_observed hc hr).2 _ _ rfl).2 hout).1⟩

/-- When the caller's own time is over the limit is not looked at. -/
theorem limit_unobserved : ¬ ∀ (limit t timeout : ℤ) (es : List Event) (now : Timeval) (h : History),
    Clocked t (es ++ [⟨now, .sleepTime timeout⟩]) → run limit t es = .ok h →
    h.meter.watches ≠ [] →
    (writemonSleepTime limit timeout now h.state = .error .pageTimeLimit ↔
      (h.meter.advance now.micros).Exceeds limit) := by
  intro hall
  have hc : Clocked 0 (writing ++ [⟨⟨100, 0⟩, .sleepTime 10⟩]) := by
    simp [writing, Clocked, Timeval.Valid, Timeval.zero, Timeval.micros]
  have hr : run 5 0 writing = .ok written := rfl
  have hiff := hall 5 0 10 writing ⟨100, 0⟩ written hc hr (List.cons_ne_nil _ _)
  have hx : (written.meter.advance (Timeval.micros ⟨100, 0⟩)).Exceeds 5 :=
    ⟨by decide, rfl, by decide⟩
  cases hiff.mpr hx

end Ppr.Writemon
