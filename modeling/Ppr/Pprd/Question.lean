import Ppr.Pprd.Printer

/-!
# Questions

`pprd_question.c`: processes that ask the submitter of a job something.  They only ever touch the
flags and the resend time of a queue entry.  The time of day is `now`.
-/

namespace Ppr

/-- A process ended by `exit(0)`, by another exit code, or otherwise. -/
inductive WaitStatus where
  | exited (code : ℕ)
  | signaled (core : Bool)
  | stopped
  | other
  deriving DecidableEq, Repr

/-- `question_launch()`.  If `fork()` fails the slot is left with the pid -1. -/
def questionLaunch (os : ℕ → Bool) (s : Pprd) (x : ℕ) : Except Stop Pprd :=
  match s.questions.slots.findIdx? fun a => a.pid = 0 with
  | none => .error .noQuestionSlot
  | some y =>
    if os s.forks then
      let job := s.job x
      let slot :=
        { pid := s.forks + 1, destid := job.destid, id := job.id, subid := job.subid }
      let s := s.modifyJob x fun q => { q with flags := q.flags ||| flagQuestionAskingNow }
      .ok { s with
        forks := s.forks + 1
        questions.slots := s.questions.slots.set y slot
        questions.active := s.questions.active + 1
        questions.launchesThisTick := s.questions.launchesThisTick + 1 }
    else
      .ok { s with
        forks := s.forks + 1
        questions.slots := s.questions.slots.modify y fun a => { a with pid := -1 } }

/-- Ask the question of entry `x`, if it is not being asked and the time has come. -/
def questionRetry (os : ℕ → Bool) (now : ℤ) (s : Pprd) (x : ℕ) : Except Stop Pprd :=
  if (s.job x).flags &&& flagQuestionAskingNow = 0 ∧ (s.job x).resendMessageAt ≤ now then
    questionLaunch os s x
  else .ok s

/-- The loop of `question_look_for_work()` at entry `x` with `n` entries to go, after `count`
unanswered questions. -/
def questionScan (os : ℕ → Bool) (now : ℤ) : ℕ → ℕ → ℕ → Pprd → Except Stop Pprd
  | 0, _, count, s => .ok { s with questions.outstanding := count }
  | n + 1, x, count, s =>
    if count < s.questions.outstanding ∧ s.questions.active < maxActiveQuestions ∧
        s.questions.launchesThisTick < maxLaunchesPerTick then
      if (s.job x).flags &&& flagQuestionUnanswered ≠ 0 then do
        let s ← questionRetry os now s x
        questionScan os now n (x + 1) (count + 1) s
      else questionScan os now n (x + 1) count s
    else .ok s

/-- `question_look_for_work()`. -/
def questionLookForWork (os : ℕ → Bool) (now : ℤ) (s : Pprd) : Except Stop Pprd :=
  if s.questions.outstanding > 0 then questionScan os now s.queue.length 0 0 s else .ok s

/-- `question_job()`. -/
def questionJob (os : ℕ → Bool) (s : Pprd) (x : ℕ) : Except Stop Pprd :=
  let s := { s with questions.outstanding := s.questions.outstanding + 1 }
  if s.questions.active < maxActiveQuestions then questionLaunch os s x else .ok s

/-- What `question_child_hook()` does with the job the question was about, if it is still
there. -/
def questionAsked (now : ℤ) (wstat : WaitStatus) (s : Pprd) (k : JobKey) : Except Stop Pprd :=
  match s.findJob k with
  | none => .ok s
  | some y =>
    if (s.job y).flags &&& flagQuestionAskingNow = 0 then .error .notAsking
    else .ok (s.modifyJob y fun q =>
      { q with
        resendMessageAt := if wstat = .exited 0 then now + 300 else now + 60
        flags := q.flags &&& ~~~flagQuestionAskingNow })

/-- `question_child_hook()`. -/
def questionChildHook (os : ℕ → Bool) (now : ℤ) (s : Pprd) (pid : ℤ) (wstat : WaitStatus) :
    Except Stop Pprd :=
  match s.questions.slots.findIdx? fun a => a.pid = pid with
  | none => .ok s
  | some y => do
    let slot := s.questions.slots.getD y default
    let s ← questionAsked now wstat s (slot.destid, slot.id, slot.subid)
    questionLookForWork os now { s with
      questions.slots := s.questions.slots.modify y fun a => { a with pid := 0 }
      questions.active := s.questions.active - 1 }

/-- `question_tick()`. -/
def questionTick (os : ℕ → Bool) (now : ℤ) (s : Pprd) : Except Stop Pprd :=
  questionLookForWork os now { s with questions.launchesThisTick := 0 }

/-- The flag is set and the question asked, unless it is being asked already, or the flag is
cleared. -/
def questionSet (os : ℕ → Bool) (s : Pprd) (x : ℕ) (onOff : Bool) : Except Stop Pprd :=
  if onOff then
    let s := s.modifyJob x fun q => { q with flags := q.flags ||| flagQuestionUnanswered }
    if (s.job x).flags &&& flagQuestionAskingNow = 0 then questionJob os s x else .ok s
  else .ok (s.modifyJob x fun q => { q with flags := q.flags &&& ~~~flagQuestionUnanswered })

/-- `question_on_off()`. -/
def questionOnOff (os : ℕ → Bool) (s : Pprd) (x : ℕ) (onOff : Bool) : Except Stop Pprd := do
  let s ← questionSet os (s.modifyJob x fun q => { q with resendMessageAt := 0 }) x onOff
  .ok (queueWriteStatusAndFlags s x)

end Ppr
