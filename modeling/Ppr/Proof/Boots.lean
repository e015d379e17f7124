import Ppr.Proof.Steps

/-!
# The start of the daemon

The printers and groups are loaded into new slots, the queue files are accepted one by one, and at
the end every idle printer looks for work.
-/

namespace Ppr

open Outcome Machine

variable {os : ℕ → Bool}

/-- What loading the tables can do. -/
def LoadAllowed (t : Pprd) : Act → Prop
  | .newPrinter p _ => p = t.printerCount
  | .newGroup g _ => g = t.groupCount
  | _ => False

theorem loadTables_acts (b : Boot) :
    Ensures (loadTables b) (Acts (fun a t => LoadAllowed t a) b.empty) := by
  -- The groups are loaded after the printers, so that there is room for them.
  have hp : Ensures (b.printers.foldlM (fun s f => loadPrinters1 s f.1 f.2) b.empty)
      (Acts (fun a t => ∃ c, a = .newPrinter t.printerCount c) b.empty) :=
    ensures_foldlM (fun t f _ ht => (loadPrinters1_acts fun c => ⟨c, rfl⟩).mono fun u => ht.trans)
      (.refl _)
  refine Ensures.bind hp fun s hs => ?_
  have hg : s.groupCount = 0 := by
    refine Trail.invariant (I := fun s => s.groupCount = 0) (fun a t u ht ha hc => ?_) hs rfl
    obtain ⟨c, rfl⟩ := ha
    exact hc.groupCount.trans ht
  have hs' : Acts (fun a t => LoadAllowed t a) b.empty s := hs.weaken fun a t h => by
    obtain ⟨c, rfl⟩ := h
    rfl
  refine Ensures.mono (Q := fun t => Acts (fun a t => LoadAllowed t a) b.empty t ∧
    t.groupCount ≤ maxGroups) ?_ fun t ht => ht.1
  refine ensures_foldlM (fun t f _ ht => ?_) ⟨hs', hg ▸ Nat.zero_le _⟩
  exact (loadGroups1_acts ht.2 fun c => rfl).mono fun u hu => ⟨ht.1.trans hu.1, hu.2⟩

/-- The end of `initialize_queue()`: job counts are flushed and idle printers look for work. -/
theorem initializeQueue_ensures {s : Pprd} {names : List QName} {J : List QName → Pprd → Prop}
    (h : J names s)
    (hacc : ∀ name rest s, J (name :: rest) s →
      Ensures (queueAcceptQueuefile os s name false false) (J rest)) :
    Ensures (initializeQueue os s names) fun u => ∃ t, J [] t ∧ Starts t u := by
  refine Ensures.bind (Q := J []) ?_ fun t ht => ?_
  · unfold inheritQueue
    induction names generalizing s with
    | nil => exact ensures_ok h
    | cons name rest ih =>
      rw [List.foldlM_cons]
      exact Ensures.bind (hacc name rest s h) fun t ht => ih ht
  · let u := (List.range t.printerCount).foldl printerSpoolStateSave t
    let v := (List.range u.groupCount).foldl groupSpoolStateSave u
    have h1 : Frame t u :=
      foldl_invariant (fun u p _ hu => hu.trans (frame_printerSpoolStateSave u p)) (Frame.refl t)
    have h2 : Frame t v :=
      foldl_invariant (fun u g _ hu => hu.trans (frame_groupSpoolStateSave u g)) h1
    change Ensures ((List.range v.printerCount).foldlM (lookForWorkIfIdle os) v) _
    refine Ensures.mono (Q := Starts v) ?_ fun w hw => ⟨t, ht, (Starts.of_frame h2).trans hw⟩
    refine ensures_foldlM (fun w p hp hw => ?_) (.refl v)
    refine (lookForWorkIfIdle_starts (.inl ?_)).mono fun x => hw.trans
    rw [hw.sameTables.printerCount]
    exact List.mem_range.1 hp

/-- What holds after the start: `I` while the tables are loaded, `J` with the queue files that are
left, and what starting printers makes of it. -/
theorem boot_ensures {b : Boot} {I : Pprd → Prop} {J : List QName → Pprd → Prop} {Q : Pprd → Prop}
    (h0 : I b.empty) (hload : ∀ a s t, I s → LoadAllowed s a → Change a s t → I t)
    (hJ : ∀ s, I s → s.queue = [] → s.fifo = [] → J b.queue s)
    (hacc : ∀ name rest s t, J (name :: rest) s → Accepted s name false t → J rest t)
    (hQ : ∀ s t, J [] s → Starts s t → Q t) : Ensures (boot os b) Q := by
  refine Ensures.bind (loadTables_acts b) fun s hs => ?_
  have hI : I s ∧ s.queue = [] ∧ s.fifo = [] := by
    refine Trail.invariant (I := fun s => I s ∧ s.queue = [] ∧ s.fifo = [])
      (fun a t u ht ha hc => ⟨hload a t u ht.1 ha hc, ?_, ?_⟩) hs ⟨h0, rfl, rfl⟩
    · obtain ⟨l, hl, hu⟩ := hc.queue
      have hnil : l = [] := List.length_eq_zero_iff.1 (by rw [hl.length, ht.2.1]; rfl)
      rw [hu, hnil]
      cases a <;> first | rfl | cases ha
    · rw [hc.fifo (by rintro rfl; cases ha), ht.2.2]
  refine (initializeQueue_ensures (hJ s hI.1 hI.2.1 hI.2.2) fun name rest s hs =>
    (queueAcceptQueuefile_ensures s name false false).mono fun t => hacc name rest s t hs).mono ?_
  rintro u ⟨t, ht, hu⟩
  exact hQ t u ht hu

end Ppr
