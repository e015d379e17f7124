import Ppr.Libgu.Timeval
import Ppr.Lib.Ascii

/-!
# Watching for stalls

`pprdrv_writemon.c`: the stack of operations that may stall and what is announced of them, the page
stopwatch, and the time that `writemon_sleep_time()` lets `select()` sleep.
-/

namespace Ppr.Writemon

/-- An entry of `stack[]`. -/
structure Level where
  rememberedOperation : List Byte
  /-- `none` until `start_time_set`. -/
  startTime : Option Timeval := none
  minutesAnnounced : ℤ := 0
  deriving DecidableEq

/-- The static variables; the entry at `stackp` comes first. -/
structure State where
  stack : List Level := []
  onlineValid : Bool := false
  online : Bool := false
  unaccumulatedStart : Timeval := .zero
  accumulator : Timeval := .zero
  deriving DecidableEq

/-- What is told to `commentary()` and `ppop_status_writemon()`. -/
structure Stalled where
  operation : List Byte
  seconds : ℤ
  minutes : ℤ
  severity : ℤ
  deriving DecidableEq

inductive Stop where
  /-- "assertion failed: stackp >= 10" -/
  | tooDeep
  /-- "assertion failed: writemon_start() wasn't called" -/
  | notStarted
  /-- "assertion failed: operation=..., remembered_operation=..." -/
  | wrongOperation
  /-- "assertion failed, sleep_time is negative" -/
  | negativeSleep
  /-- The loop of announcements goes on. -/
  | outOfFuel
  /-- "PageTimeLimit exceeded" -/
  | pageTimeLimit
  deriving DecidableEq

/-- `writemon_init()`. -/
def writemonInit : State := {}

/-- `writemon_start()`. -/
def writemonStart (operation : List Byte) (s : State) : Except Stop State :=
  if 10 ≤ s.stack.length then .error .tooDeep
  else .ok { s with stack := { rememberedOperation := operation } :: s.stack }

/-- `compute_severity()`. -/
def computeSeverity (minutes : ℤ) : ℤ :=
  let severity := minutes.tdiv 3
  if severity < 1 then 1 else if severity > 10 then 10 else severity

/-- `writemon_stalled()`. -/
def writemonStalled (timeStalled : Timeval) (level : Level) : Level × List Stalled :=
  let minutes := timeStalled.sec.tdiv 60
  if minutes > level.minutesAnnounced then
    ({ level with minutesAnnounced := minutes },
      [⟨level.rememberedOperation, timeStalled.sec, minutes, computeSeverity minutes⟩])
  else (level, [])

/-- When the next announcement is to be made. -/
def nextTime (start : Timeval) (level : Level) : Timeval :=
  start.addSec ((level.minutesAnnounced + 1) * 60)

/-- The loop of `writemon_sleep_time()`. -/
def announceLoop (start now : Timeval) : ℕ → Level → Except Stop (Level × List Stalled)
  | 0, _ => .error .outOfFuel
  | fuel + 1, level =>
    if (nextTime start level).cmp now ≤ 0 then do
      let (level, made) := writemonStalled (now.sub start) level
      let (level, more) ← announceLoop start now fuel level
      return (level, made ++ more)
    else .ok (level, [])

/-- When the limit on the time for a page is going to be exceeded. -/
def timeOfExpiration (limit : ℤ) (s : State) : Timeval :=
  (Timeval.add ⟨limit, 0⟩ s.unaccumulatedStart).sub s.accumulator

/-- The limit set by "ppad pagetimelimit" is observed; `wake` is when `select()` was to stop. -/
def observeLimit (limit : ℤ) (now wake : Timeval) (s : State) : Except Stop Timeval :=
  if 0 < limit ∧ s.onlineValid ∧ s.online then
    if 0 < now.cmp (timeOfExpiration limit s) then .error .pageTimeLimit
    else .ok (if (timeOfExpiration limit s).cmp wake < 0 then timeOfExpiration limit s else wake)
  else .ok wake

/-- What a call answers: the time to sleep, if it is not FALSE, and what has been announced. -/
structure Answer where
  sleep : Option Timeval := none
  stalled : List Stalled := []
  deriving DecidableEq

/-- `writemon_sleep_time()`. -/
def writemonSleepTime (limit timeout : ℤ) (now : Timeval) (s : State) :
    Except Stop (State × Answer) :=
  match s.stack with
  | [] => .error .notStarted
  | level :: below => do
    let start := level.startTime.getD now
    let level := { level with startTime := some start }
    let yours := start.addSec timeout
    if 0 < timeout ∧ yours.cmp now ≤ 0 then
      return ({ s with stack := level :: below }, {})
    let (level, stalled) ← announceLoop start now ((now.sec - start.sec).toNat + 2) level
    let mine := nextTime start level
    let wake ← observeLimit limit now (if timeout < 1 ∨ mine.cmp yours < 0 then mine else yours) s
    let sleep := wake.sub now
    if sleep.sec < 0 ∨ sleep.sec = 0 ∧ sleep.usec < 0 then .error .negativeSleep
    else return ({ s with stack := level :: below }, { sleep := some sleep, stalled := stalled })

/-- `writemon_unstalled()`. -/
def writemonUnstalled (operation : List Byte) (s : State) : Except Stop State :=
  match s.stack with
  | [] => .error .notStarted
  | level :: below =>
    if operation ≠ level.rememberedOperation then .error .wrongOperation
    else .ok { s with stack := below }

/-- `writemon_pagedrop()`. -/
def writemonPagedrop (now : Timeval) (s : State) : State :=
  { s with accumulator := .zero, unaccumulatedStart := now }

/-- `writemon_online()`. -/
def writemonOnline (online : Bool) (now : Timeval) (s : State) : State :=
  if online ≠ s.online ∨ ¬ s.onlineValid then
    let s :=
      if online then { s with unaccumulatedStart := now }
      else if s.onlineValid then
        { s with accumulator := s.accumulator.add (now.sub s.unaccumulatedStart) }
      else s
    { s with onlineValid := true, online := online }
  else s

inductive Call where
  | start (operation : List Byte)
  | sleepTime (timeout : ℤ)
  | unstalled (operation : List Byte)
  | pagedrop
  | online (online : Bool)
  deriving DecidableEq

/-- A call, and what `gettimeofday()` tells it. -/
structure Event where
  now : Timeval
  call : Call
  deriving DecidableEq

/-- One call with `PageTimeLimit` set to `limit`. -/
def step (limit : ℤ) (s : State) (e : Event) : Except Stop (State × Answer) :=
  match e.call with
  | .start operation => return (← writemonStart operation s, {})
  | .sleepTime timeout => writemonSleepTime limit timeout e.now s
  | .unstalled operation => return (← writemonUnstalled operation s, {})
  | .pagedrop => return (writemonPagedrop e.now s, {})
  | .online online => return (writemonOnline online e.now s, {})

/-! ## What each of them does -/

theorem writemonStart_ok {operation : List Byte} {s s' : State}
    (h : writemonStart operation s = .ok s') :
    s' = { s with stack := { rememberedOperation := operation } :: s.stack } := by
  unfold writemonStart at h
  split_ifs at h
  exact (Except.ok.inj h).symm

theorem writemonUnstalled_ok {operation : List Byte} {s s' : State}
    (h : writemonUnstalled operation s = .ok s') :
    ∃ level, s.stack = level :: s'.stack ∧ s' = { s with stack := s'.stack } := by
  unfold writemonUnstalled at h
  split at h
  · cases h
  · next level below hs =>
    split_ifs at h
    cases h
    exact ⟨level, hs, rfl⟩

/-- The whole minutes that have passed. -/
def minutesSince (start now : Timeval) : ℤ := (now.micros - start.micros) / 60000000

/-- It is time for an announcement as soon as a minute that has not been announced is over. -/
theorem nextTime_due {start now : Timeval} (hs : start.Valid) (hn : now.Valid) (level : Level) :
    (nextTime start level).cmp now ≤ 0 ↔ level.minutesAnnounced < minutesSince start now := by
  rw [nextTime, Timeval.cmp_nonpos (hs.addSec _) hn, Timeval.micros_addSec, minutesSince]
  omega

/-- The minutes announced are those that have passed. -/
theorem sub_minutes {start now : Timeval} (hs : start.Valid) (hn : now.Valid)
    (hle : start.micros ≤ now.micros) : (now.sub start).sec.tdiv 60 = minutesSince start now := by
  have hbounds := Timeval.sec_bounds (Timeval.sub_valid hn hs.loose)
  rw [Timeval.micros_sub] at hbounds
  rw [Int.tdiv_eq_ediv_of_nonneg (by omega), minutesSince]
  omega

/-- The loop makes at most one announcement, of all the minutes that have passed. -/
theorem announceLoop_ok {start now : Timeval} (hs : start.Valid) (hn : now.Valid)
    (hle : start.micros ≤ now.micros) {level : Level}
    (hmax : level.minutesAnnounced ≤ minutesSince start now) (fuel : ℕ) :
    ∃ made, announceLoop start now (fuel + 2) level =
        .ok ({ level with minutesAnnounced := minutesSince start now }, made) ∧
      (made = [] ∨ level.minutesAnnounced < minutesSince start now ∧
        made.map (·.minutes) = [minutesSince start now]) := by
  rw [announceLoop]
  by_cases hdue : level.minutesAnnounced < minutesSince start now
  · have hstalled := sub_minutes hs hn hle
    have hover : ¬ (nextTime start { level with minutesAnnounced := minutesSince start now }).cmp
        now ≤ 0 := by
      rw [nextTime_due hs hn]
      exact lt_irrefl _
    have hlast : announceLoop start now (fuel + 1)
        { level with minutesAnnounced := minutesSince start now } =
        .ok ({ level with minutesAnnounced := minutesSince start now }, []) := if_neg hover
    rw [if_pos ((nextTime_due hs hn level).mpr hdue), writemonStalled, hstalled, if_pos hdue]
    dsimp only
    rw [hlast]
    exact ⟨_, rfl, Or.inr ⟨hdue, rfl⟩⟩
  · rw [if_neg (mt (nextTime_due hs hn level).mp hdue)]
    have heq : level.minutesAnnounced = minutesSince start now := le_antisymm hmax (not_lt.mp hdue)
    exact ⟨[], by rw [← heq], Or.inl rfl⟩

end Ppr.Writemon
