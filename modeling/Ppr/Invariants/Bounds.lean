import Ppr.Proof.Exec

/-!
# Printers that exist

The members of groups and the printers that jobs are printing on have slots of the printer table, in
every state of every run.
-/

namespace Ppr

open Outcome Machine

variable {os : ℕ → Bool}

/-- The ids of printers in the groups and in the queue are those of slots in use. -/
structure InBounds (s : Pprd) : Prop where
  member : ∀ g, ∀ m ∈ (s.groups g).printers, m < s.printerCount
  printing : ∀ q ∈ s.queue, ∀ p, q.status = .printing p → p < s.printerCount

theorem InBounds.knownPrinter {s : Pprd} (h : InBounds s) {p : ℕ} (hp : knownPrinter s p) :
    p < s.printerCount := by
  rcases hp with hp | ⟨g, hg⟩
  · exact hp
  · exact h.member g p hg

/-- A job that is printing after an act was so before, or the act has started it. -/
theorem Act.printing_cases {a : Act} {s : Pprd} (hok : a.ok s) {l : List QEntry}
    (hl : l.length = s.queue.length) {q : QEntry} (hq : q ∈ a.queue l) {p : ℕ}
    (hp : q.status = .printing p) :
    (∃ q' ∈ l, q'.status = .printing p) ∨ ∃ x y pid, a = .start p x y pid := by
  have same : q ∈ l → ∃ q' ∈ l, q'.status = .printing p := fun hq => ⟨q, hq, hp⟩
  cases a with
  | start p' x y pid =>
    rcases List.mem_modify hq with hq | ⟨b, -, -, rfl⟩
    · exact .inl (same hq)
    · cases hp
      exact .inr ⟨x, y, pid, rfl⟩
  | cancel x p' | cancelSeizing x p' | seize x p' =>
    rcases List.mem_modify hq with hq | ⟨b, -, -, rfl⟩
    · exact .inl (same hq)
    · cases hp
  | exitKeep p' e y st =>
    rcases List.mem_modify hq with hq | ⟨b, -, -, rfl⟩
    · exact .inl (same hq)
    · have hst := hok.2.2.2.2.2.1
      rw [show st = .printing p from hp] at hst
      cases hst
  | move x d n =>
    rcases List.mem_modify hq with hq | ⟨b, hb, -, rfl⟩
    · exact .inl (same hq)
    · exact .inl ⟨b, hb, hp⟩
  | purge x y | exitRemove p' e y => exact .inl (same (List.mem_of_mem_eraseIdx hq))
  | insert x q' =>
    have hx : x ≤ l.length := by
      rw [hl, hok.1]
      exact List.findIdx_le_length
    rcases (List.mem_insertIdx hx).1 hq with rfl | hq
    · have := hok.2
      rw [hp] at this
      cases this
    · exact .inl (same hq)
  | replace x q' =>
    rcases List.mem_or_eq_of_mem_set hq with hq | rfl
    · exact .inl (same hq)
    · have := hok.2.2
      rw [hp] at this
      cases this
  | rush x newpos =>
    have hx : l.getD x default ∈ l := by
      have hlt : x < l.length := hl ▸ hok
      rw [List.getD_eq_getElem _ _ hlt]
      exact List.getElem_mem hlt
    simp only [Act.queue] at hq
    split_ifs at hq
    · rcases List.mem_cons.1 hq with rfl | hq
      · exact .inl ⟨_, hx, hp⟩
      · exact .inl (same (List.mem_of_mem_eraseIdx hq))
    · rcases List.mem_append.1 hq with hq | hq
      · exact .inl (same (List.mem_of_mem_eraseIdx hq))
      · rw [List.mem_singleton.1 hq] at hp
        exact .inl ⟨_, hx, hp⟩
  | _ => exact .inl (same hq)

theorem Change.printerCount_le {a : Act} {s t : Pprd} (h : Change a s t) :
    s.printerCount ≤ t.printerCount := by
  rw [h.printerCount]
  cases a with
  | newPrinter p c => exact le_max_left _ _
  | _ => exact le_rfl

theorem InBounds.act {a : Act} {s t : Pprd} (h : InBounds s) (hc : Change a s t) : InBounds t where
  member g m hm := by
    have hcore := congrArg GroupCore.printers (hc.group g)
    have hm' : m ∈ (t.groups g).core.printers := hm
    rw [hcore] at hm'
    refine lt_of_lt_of_le ?_ hc.printerCount_le
    have hok := hc.ok
    cases a with
    | newGroup g' c =>
      simp only [Act.group?] at hm'
      split_ifs at hm' with hg
      · subst hg
        exact (hok.2.2 m hm').elim id (h.member _ m)
      · exact h.member g m hm'
    | group g' c =>
      simp only [Act.group?] at hm'
      split_ifs at hm' with hg
      · subst hg
        exact (hok.2.1 m hm').elim id (h.member _ m)
      · exact h.member g m hm'
    | _ => exact h.member g m hm'
  printing q hq p hp := by
    refine lt_of_lt_of_le ?_ hc.printerCount_le
    obtain ⟨l, hl, ht⟩ := hc.queue
    rw [ht] at hq
    rcases Act.printing_cases hc.ok hl.length hq hp with ⟨q', hq', hp'⟩ | ⟨x, y, pid, rfl⟩
    · obtain ⟨q'', hq'', hf⟩ := hl.mem hq'
      refine h.printing q'' hq'' p ?_
      rcases hf.status with he | ⟨-, he⟩
      · rw [← he, hp']
      · rw [hp'] at he
        cases he
    · exact h.knownPrinter hc.ok.2.2.2.2.2.2

theorem InBounds.acts {K : Act → Pprd → Prop} {s t : Pprd} (h : InBounds s) (ht : Acts K s t) :
    InBounds t :=
  ht.invariant (fun _ _ _ hs _ hc => hs.act hc) h

/-- The start of the daemon is a path of acts, too. -/
theorem boot_acts (b : Boot) : Ensures (boot os b) (Acts (fun _ _ => True) b.empty) := by
  have hK : Base fun _ _ => True := by constructor <;> intros <;> trivial
  refine boot_ensures (I := Acts (fun _ _ => True) b.empty)
    (J := fun _ => Acts (fun _ _ => True) b.empty) (.refl _) ?_ ?_ ?_ ?_
  · exact fun a s t hs _ hc => hs.trans (Trail.single trivial hc)
  · exact fun s hs _ _ => hs
  · rintro name rest s t hs (⟨u, hu, rfl, -⟩ | ⟨u, v, q, a, hu, -, hc, hv, -⟩)
    · refine (hK.acts_then_frame hs hu).trans (Trail.single (a := .ppr) trivial ?_)
      exact change_ppr rfl rfl rfl rfl rfl rfl rfl
    · exact ((hK.acts_then_frame hs hu).trans (Trail.single trivial hc)).trans (hv.acts hK)
  · exact fun s t hs ht => hs.trans (ht.acts hK)

theorem InBounds.boot (b : Boot) : Ensures (boot os b) InBounds := by
  refine (boot_acts b).mono fun s hs => InBounds.acts ⟨fun g m hm => ?_, fun q hq => ?_⟩ hs
  · cases hm
  · cases hq

theorem InBounds.step {s t : Pprd} {ev : Event} (h : InBounds s) (hev : ev.possible)
    (hst : step os s ev = .ok t) : InBounds t :=
  h.acts (step_acts hev t hst)

theorem InBounds.of_run {B : Boot → Prop} {C : Pprd → Event → Prop} {hist : List (Pprd × Event)}
    {s : Pprd} (run : Runs os B C hist s) : InBounds s := by
  refine run.invariant (I := InBounds) ?_ ?_
  · rintro s ⟨b, -, -, hs⟩
    exact InBounds.boot b s hs
  · rintro s ev t h ⟨hev, -, hst⟩
    exact h.step hev hst

end Ppr
