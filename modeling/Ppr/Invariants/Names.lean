import Ppr.Proof.Exec

/-!
# Keys and file names

No two entries have the same key, and the file of a queued or submitted job is its own.  What can
break this is the renaming of files by a move, the removal of files by a ppr that gives up, the
refusal of a job made from its skeleton, and a new printer or group in the slot of a deleted one that
queued jobs still refer to.
-/

namespace Ppr

open Outcome Machine

variable {os : ℕ → Bool}

/-- The keys of the queued jobs, in order. -/
def Pprd.keys (s : Pprd) : List JobKey := s.queue.map QEntry.key

/-- The name of a job's queue file. -/
def keyName (s : Pprd) (k : JobKey) : QName := (destidToName s k.1, k.2)

/-- What an act does to the keys. -/
def Act.keys : Act → List JobKey → List JobKey
  | .purge _ y, l | .exitRemove _ _ y, l => l.eraseIdx y
  | .insert x q, l => l.insertIdx x q.key
  | .rush x newpos, l =>
    if newpos = 0 then l.getD x default :: l.eraseIdx x else l.eraseIdx x ++ [l.getD x default]
  | .move x d _, l => l.modify x fun k => (d, k.2)
  | _, l => l

theorem QueueFrame.keys {l l' : List QEntry} (h : QueueFrame l l') :
    l'.map QEntry.key = l.map QEntry.key :=
  h.map_eq QEntry.key fun _ _ h => h.key

theorem Change.keys {a : Act} {s t : Pprd} (h : Change a s t) : t.keys = a.keys s.keys := by
  obtain ⟨l, hl, ht⟩ := h.queue
  have hk := hl.keys
  have status : ∀ (st : JobStatus) (x : ℕ),
      (l.modify x fun q => { q with status := st }).map QEntry.key = l.map QEntry.key :=
    fun st x => List.map_modify_of_eq (f := fun q : QEntry => { q with status := st })
      (fun _ => rfl) l x
  unfold Pprd.keys
  rw [ht, ← hk]
  cases a with
  | start p x y pid => exact status _ _
  | cancel x p | cancelSeizing x p | seize x p => exact status _ _
  | exitKeep p e y st => exact status _ _
  | purge x y | exitRemove p e y => exact (List.eraseIdx_map ..).symm
  | insert x q => exact List.map_insertIdx ..
  | replace x q =>
    obtain ⟨hx, hq, -⟩ := h.ok
    refine List.ext_getElem (by simp [Act.queue, Act.keys]) fun y hy hy' => ?_
    by_cases hxy : x = y
    · subst hxy
      have hlx : x < l.length := by simpa [Act.keys] using hy'
      have := (hl.job x).key
      simp only [List.getD_eq_getElem _ _ hlx] at this
      simp only [Act.queue, Act.keys, List.getElem_map, List.getElem_set_self]
      exact hq.trans this.symm
    · simp [Act.queue, Act.keys, hxy]
  | rush x newpos =>
    obtain hx := h.ok
    have hlx : x < l.length := hl.length ▸ hx
    by_cases hn : newpos = 0
    · simp [Act.queue, Act.keys, hn, hlx, List.eraseIdx_map, QEntry.key]
    · simp [Act.queue, Act.keys, hn, hlx, List.eraseIdx_map, QEntry.key]
  | move x d n =>
    refine List.ext_getElem (by simp [Act.queue, Act.keys]) fun y hy hy' => ?_
    by_cases hxy : x = y
    · subst hxy
      simp [Act.queue, Act.keys, QEntry.key]
    · simp [Act.queue, Act.keys, hxy]
  | _ => rfl

/-! ## The invariant -/

/-- The file is that of a queued job, whose destination is not deleted, or of a job that has been
submitted. -/
def Taken (s : Pprd) (name : QName) : Prop :=
  (∃ k ∈ s.keys, destidLive s k.1 ∧ keyName s k = name) ∨ .new name ∈ s.fifo

instance (s : Pprd) (name : QName) : Decidable (Taken s name) :=
  inferInstanceAs (Decidable (_ ∨ _))

/-- Every job has its own key and its own file. -/
structure Named (s : Pprd) : Prop where
  nodup : s.keys.Nodup
  inj : ∀ k ∈ s.keys, ∀ k' ∈ s.keys, destidLive s k.1 → destidLive s k'.1 →
    keyName s k = keyName s k' → k = k'
  files : ∀ name, Taken s name → (s.disk.queue name).isSome
  pending : ∀ name, s.fifo.count (.new name) ≤ 1
  fresh : ∀ k ∈ s.keys, destidLive s k.1 → .new (keyName s k) ∉ s.fifo
  dests : ∀ k ∈ s.keys,
    k.1 < s.printerCount ∨ maxPrinters ≤ k.1 ∧ destidToGindex k.1 < s.groupCount
  count : s.printerCount ≤ maxPrinters

/-- Jobs may go away and destinations may be deleted. -/
theorem Named.of_subset {s t : Pprd} (h : Named s) (hnd : t.keys.Nodup) (hsub : t.keys ⊆ s.keys)
    (hlive : ∀ k ∈ t.keys, destidLive t k.1 →
      destidLive s k.1 ∧ destidToName t k.1 = destidToName s k.1)
    (hf : ∀ name, (s.disk.queue name).isSome → Taken t name → (t.disk.queue name).isSome)
    (hfifo : t.fifo = s.fifo)
    (hdests : ∀ k ∈ t.keys,
      k.1 < t.printerCount ∨ maxPrinters ≤ k.1 ∧ destidToGindex k.1 < t.groupCount)
    (hcount : t.printerCount ≤ maxPrinters) : Named t := by
  have hname : ∀ k ∈ t.keys, destidLive t k.1 → keyName t k = keyName s k := fun k hk hl =>
    congrArg (·, k.2) (hlive k hk hl).2
  have htaken : ∀ name, Taken t name → Taken s name := by
    rintro name (⟨k, hk, hl, rfl⟩ | hn)
    · exact .inl ⟨k, hsub hk, (hlive k hk hl).1, (hname k hk hl).symm⟩
    · exact .inr (hfifo ▸ hn)
  refine ⟨hnd, fun k hk k' hk' hl hl' he => ?_, fun name hn => ?_, ?_, fun k hk hl => ?_, hdests,
    hcount⟩
  · rw [hname k hk hl, hname k' hk' hl'] at he
    exact h.inj k (hsub hk) k' (hsub hk') (hlive k hk hl).1 (hlive k' hk' hl').1 he
  · exact hf name (h.files name (htaken name hn)) hn
  · exact hfifo ▸ h.pending
  · rw [hname k hk hl, hfifo]
    exact h.fresh k (hsub hk) (hlive k hk hl).1

/-- The same with the same names of destinations. -/
theorem Named.of_sameNames {s t : Pprd} (h : Named s) (hn : SameNames s t) (hnd : t.keys.Nodup)
    (hsub : t.keys ⊆ s.keys)
    (hf : ∀ name, (s.disk.queue name).isSome → Taken t name → (t.disk.queue name).isSome)
    (hfifo : t.fifo = s.fifo) : Named t :=
  h.of_subset hnd hsub (fun k _ hl => ⟨hn.destidLive k.1 ▸ hl, hn.destidToName k.1⟩) hf hfifo
    (fun k hk => by rw [hn.printerCount, hn.groupCount]; exact h.dests k (hsub hk))
    (hn.printerCount ▸ h.count)

/-- A job and its file go away. -/
theorem Named.of_erase {s t : Pprd} (h : Named s) (hn : SameNames s t) {y : ℕ} {k : JobKey}
    (hy : s.keys[y]? = some k) (hl : destidLive s k.1) (hk : t.keys = s.keys.eraseIdx y)
    (hf : ∀ name, (t.disk.queue name).isSome =
      Function.update (fun m => (s.disk.queue m).isSome) (keyName s k) false name)
    (hfifo : t.fifo = s.fifo) : Named t := by
  have hsub : t.keys ⊆ s.keys := hk ▸ List.eraseIdx_subset
  have hmem := List.mem_of_getElem? hy
  refine h.of_sameNames hn (hk ▸ h.nodup.eraseIdx y) hsub (fun name hs ht => ?_) hfifo
  rw [hf, Function.update_apply]
  split_ifs with he
  · -- Nobody else has the file of the job.
    exfalso
    rcases ht with ⟨k', hk', hl', rfl⟩ | hp
    · have hl' : destidLive s k'.1 := hn.destidLive k'.1 ▸ hl'
      have : keyName t k' = keyName s k' := congrArg (·, k'.2) (hn.destidToName k'.1)
      rw [this] at he
      have he := h.inj k' (hsub hk') k hmem hl' hl he
      subst he
      rw [hk] at hk'
      exact h.nodup.notMem_eraseIdx hy hk'
    · rw [he, hfifo] at hp
      exact h.fresh k hmem hl hp
  · exact hs

theorem keyName_of_sameNames {s t : Pprd} (hn : SameNames s t) (k : JobKey) :
    keyName t k = keyName s k :=
  congrArg (·, k.2) (hn.destidToName k.1)

/-- The id is that of a printer or group in use. -/
def DestidOk (s : Pprd) (d : ℕ) : Prop :=
  destidLive s d ∧ (d < s.printerCount ∨ maxPrinters ≤ d ∧ destidToGindex d < s.groupCount)

/-- A job gets another destination, where nobody has its name yet, and its file the new name. -/
theorem Named.of_modify {s t : Pprd} (h : Named s) (hn : SameNames s t) {x d : ℕ} {k : JobKey}
    (hx : s.keys[x]? = some k) (hl : destidLive s k.1) (hkd : k.1 ≠ d) (hd : DestidOk s d)
    (hfree : keyName s (d, k.2) = keyName s k ∨ ¬ Taken s (keyName s (d, k.2)))
    (hk : t.keys = s.keys.modify x fun k => (d, k.2))
    (hf : ∀ name, (t.disk.queue name).isSome =
      Function.update (Function.update (fun m => (s.disk.queue m).isSome) (keyName s k) false)
        (keyName s (d, k.2)) true name)
    (hfifo : t.fifo = s.fifo) : Named t := by
  have hmem := List.mem_of_getElem? hx
  have hname := keyName_of_sameNames hn
  have hlive := hn.destidLive
  -- Nobody else has the new name.
  have hother : ∀ k' ∈ s.keys, k' ≠ k → destidLive s k'.1 → keyName s k' ≠ keyName s (d, k.2) := by
    intro k' hk' hne hl' he
    rcases hfree with hf | hf
    · exact hne (h.inj k' hk' k hmem hl' hl (he.trans hf))
    · exact hf (.inl ⟨k', hk', hl', he⟩)
  have hnotmem : (d, k.2) ∉ s.keys := by
    intro hm
    refine hother _ hm (fun e => hkd ?_) hd.1 rfl
    rw [← e]
  have hfresh : .new (keyName s (d, k.2)) ∉ s.fifo := by
    rcases hfree with hf | hf
    · exact hf ▸ h.fresh k hmem hl
    · exact fun hm => hf (.inr hm)
  -- A key is the new one or another job's.
  have hcases : ∀ k' ∈ t.keys, k' = (d, k.2) ∨ k' ∈ s.keys ∧ k' ≠ k := by
    intro k' hk'
    rw [hk] at hk'
    by_cases hkk : k' = k
    · subst hkk
      exfalso
      obtain ⟨j, hj, he⟩ := List.mem_iff_getElem.1 hk'
      rw [List.length_modify] at hj
      obtain ⟨hxl, hxk⟩ := List.getElem?_eq_some_iff.1 hx
      simp only [List.getElem_modify] at he
      split_ifs at he with hxj
      · subst hxj
        exact hkd (by rw [← he])
      · exact hxj (h.nodup.getElem_inj_iff.1 (hxk.trans he.symm))
    · rcases List.mem_modify hk' with hm | ⟨b, -, hb, rfl⟩
      · exact .inr ⟨hm, hkk⟩
      · cases hx.symm.trans hb
        exact .inl rfl
  refine ⟨?_, fun k1 h1 k2 h2 hl1 hl2 he => ?_, fun name ht => ?_, hfifo ▸ h.pending,
    fun k' hk' hl' => ?_, fun k' hk' => ?_, hn.printerCount ▸ h.count⟩
  · rw [hk]
    refine h.nodup.modify fun a ha _ => ?_
    cases hx.symm.trans ha
    exact hnotmem
  · rw [hname, hname] at he
    rw [hlive] at hl1 hl2
    rcases hcases k1 h1 with rfl | ⟨h1, hne1⟩ <;> rcases hcases k2 h2 with rfl | ⟨h2, hne2⟩
    · rfl
    · exact absurd he.symm (hother k2 h2 hne2 hl2)
    · exact absurd he (hother k1 h1 hne1 hl1)
    · exact h.inj k1 h1 k2 h2 hl1 hl2 he
  · rw [hf, Function.update_apply, Function.update_apply]
    split_ifs with e1 e2
    · rfl
    · exfalso
      rcases ht with ⟨k', hk', hl', rfl⟩ | hp
      · rw [hname] at e1 e2
        rw [hlive] at hl'
        rcases hcases k' hk' with rfl | ⟨hm, hne⟩
        · exact e1 rfl
        · exact hne (h.inj k' hm k hmem hl' hl e2)
      · rw [e2, hfifo] at hp
        exact h.fresh k hmem hl hp
    · rcases ht with ⟨k', hk', hl', rfl⟩ | hp
      · rw [hname] at e1 ⊢
        rw [hlive] at hl'
        rcases hcases k' hk' with rfl | ⟨hm, -⟩
        · exact absurd rfl e1
        · exact h.files _ (.inl ⟨k', hm, hl', rfl⟩)
      · exact h.files _ (.inr (hfifo ▸ hp))
  · rw [hname, hfifo]
    rw [hlive] at hl'
    rcases hcases k' hk' with rfl | ⟨hm, -⟩
    · exact hfresh
    · exact h.fresh k' hm hl'
  · rw [hn.printerCount, hn.groupCount]
    rcases hcases k' hk' with rfl | ⟨hm, -⟩
    · exact hd.2
    · exact h.dests k' hm

/-- A new job whose name nobody has. -/
theorem Named.of_insert {s t : Pprd} (h : Named s) (hn : SameNames s t) {x : ℕ} {k : JobKey}
    (hd : DestidOk s k.1) (hfree : ¬ Taken s (keyName s k))
    (hfile : (s.disk.queue (keyName s k)).isSome) (hk : t.keys = s.keys.insertIdx x k)
    (hx : x ≤ s.keys.length) (hf : ∀ name, (t.disk.queue name).isSome = (s.disk.queue name).isSome)
    (hfifo : t.fifo = s.fifo) : Named t := by
  have hname := keyName_of_sameNames hn
  have hlive := hn.destidLive
  have hcases : ∀ k', k' ∈ t.keys ↔ k' = k ∨ k' ∈ s.keys := fun k' => by
    rw [hk, List.mem_insertIdx hx]
  have hnotmem : k ∉ s.keys := fun hm => hfree (.inl ⟨k, hm, hd.1, rfl⟩)
  refine ⟨?_, fun k1 h1 k2 h2 hl1 hl2 he => ?_, fun name ht => ?_, hfifo ▸ h.pending,
    fun k' hk' hl' => ?_, fun k' hk' => ?_, hn.printerCount ▸ h.count⟩
  · rw [hk, (List.perm_insertIdx k s.keys hx).nodup_iff]
    exact List.nodup_cons.2 ⟨hnotmem, h.nodup⟩
  · rw [hname, hname] at he
    rw [hlive] at hl1 hl2
    rcases (hcases k1).1 h1 with rfl | h1 <;> rcases (hcases k2).1 h2 with rfl | h2
    · rfl
    · exact absurd (.inl ⟨k2, h2, hl2, he.symm⟩) hfree
    · exact absurd (.inl ⟨k1, h1, hl1, he⟩) hfree
    · exact h.inj k1 h1 k2 h2 hl1 hl2 he
  · rw [hf]
    rcases ht with ⟨k', hk', hl', rfl⟩ | hp
    · rw [hname]
      rw [hlive] at hl'
      rcases (hcases k').1 hk' with rfl | hm
      · exact hfile
      · exact h.files _ (.inl ⟨k', hm, hl', rfl⟩)
    · exact h.files _ (.inr (hfifo ▸ hp))
  · rw [hname, hfifo]
    rw [hlive] at hl'
    rcases (hcases k').1 hk' with rfl | hm
    · exact fun hm => hfree (.inr hm)
    · exact h.fresh k' hm hl'
  · rw [hn.printerCount, hn.groupCount]
    rcases (hcases k').1 hk' with rfl | hm
    · exact hd.2
    · exact h.dests k' hm

/-- A destination that is still there has its old name. -/
theorem dest_of_core {s t : Pprd} {d : ℕ}
    (hv : d < s.printerCount ∨ maxPrinters ≤ d ∧ destidToGindex d < s.groupCount)
    (hc : s.printerCount ≤ t.printerCount) (htc : t.printerCount ≤ maxPrinters)
    (hgc : s.groupCount ≤ t.groupCount)
    (hp : d < s.printerCount → t.prnStatus d ≠ .deleted →
      (t.printers d).core = (s.printers d).core)
    (hg : maxPrinters ≤ d → (t.groups (destidToGindex d)).name = (s.groups (destidToGindex d)).name ∧
      ((s.groups (destidToGindex d)).deleted → (t.groups (destidToGindex d)).deleted))
    (hl : destidLive t d) : destidLive s d ∧ destidToName t d = destidToName s d := by
  rcases hv with hv | ⟨hm, hv⟩
  · have hs : destidIsGroup s d = false := by simpa [destidIsGroup] using hv
    have ht : destidIsGroup t d = false := by simpa [destidIsGroup] using lt_of_lt_of_le hv hc
    simp only [destidLive, ht, Bool.false_eq_true, if_false, decide_eq_true_eq] at hl
    have hcore := hp hv hl
    have hst : t.prnStatus d = s.prnStatus d := congrArg PrinterCore.status hcore
    have hnm : (t.printers d).name = (s.printers d).name := congrArg PrinterCore.name hcore
    simp only [destidLive, destidToName, hs, ht, Bool.false_eq_true, if_false, decide_eq_true_eq,
      ← hst, hnm, if_pos hl]
    exact ⟨hl, trivial⟩
  · have hs : destidIsGroup s d = true := by simpa [destidIsGroup] using (hc.trans htc).trans hm
    have ht : destidIsGroup t d = true := by simpa [destidIsGroup] using htc.trans hm
    obtain ⟨hnm, hdel⟩ := hg hm
    simp only [destidLive, ht, if_true, Bool.not_eq_true'] at hl
    have hsl : (s.groups (destidToGindex d)).deleted = false := by
      by_contra h
      simp [hdel (by simpa using h)] at hl
    simp only [destidLive, destidToName, hs, ht, if_true, hsl, hl, hv, lt_of_lt_of_le hv hgc, hnm]
    simp

/-- A printer or group is loaded or deleted. -/
theorem Named.of_load {s t : Pprd} (h : Named s) (hk : t.keys = s.keys)
    (hf : ∀ name, (t.disk.queue name).isSome = (s.disk.queue name).isSome) (hfifo : t.fifo = s.fifo)
    (hc : s.printerCount ≤ t.printerCount) (htc : t.printerCount ≤ maxPrinters)
    (hgc : s.groupCount ≤ t.groupCount)
    (hp : ∀ k ∈ s.keys, t.prnStatus k.1 ≠ .deleted →
      (t.printers k.1).core = (s.printers k.1).core)
    (hg : ∀ k ∈ s.keys, maxPrinters ≤ k.1 →
      (t.groups (destidToGindex k.1)).name = (s.groups (destidToGindex k.1)).name ∧
        ((s.groups (destidToGindex k.1)).deleted → (t.groups (destidToGindex k.1)).deleted)) :
    Named t := by
  have hmem : ∀ k ∈ t.keys, k ∈ s.keys := fun k hkt => hk ▸ hkt
  refine h.of_subset (hk ▸ h.nodup) hmem (fun k hkt hl => ?_) (fun name hs _ => (hf name).trans hs)
    hfifo (fun k hkt => ?_) htc
  · exact dest_of_core (h.dests k (hmem k hkt)) hc htc hgc (fun _ => hp k (hmem k hkt))
      (hg k (hmem k hkt)) hl
  · exact (h.dests k (hmem k hkt)).imp (fun h => by omega) fun h => ⟨h.1, by omega⟩

/-- What an act must not do to names. -/
def NamePermit (s : Pprd) : Act → Prop
  | .ppr => False
  | .insert x q => x ≤ s.queue.length ∧ DestidOk s q.destid ∧ ¬ Taken s (keyName s q.key) ∧
      (s.disk.queue (keyName s q.key)).isSome
  | .move x d n => (s.job x).destid ≠ d → destidLive s (s.job x).destid ∧ DestidOk s d ∧
      destidToName s d = n ∧ (keyName s (d, (s.job x).key.2) = keyName s (s.job x).key ∨
        ¬ Taken s (keyName s (d, (s.job x).key.2)))
  | .newPrinter p _ => ∀ k ∈ s.keys, k.1 ≠ p
  | .newGroup g _ => ∀ k ∈ s.keys, k.1 ≠ destidByGindex g
  | _ => True

theorem keys_getElem? (s : Pprd) {x : ℕ} (h : x < s.queue.length) :
    s.keys[x]? = some (s.job x).key := by
  simp [Pprd.keys, Pprd.job, h]

theorem key_inj {s : Pprd} (h : s.keys.Nodup) {x y : ℕ} (hx : x < s.queue.length)
    (hy : y < s.queue.length) (he : (s.job x).key = (s.job y).key) : x = y := by
  have hx' : x < s.keys.length := by simpa [Pprd.keys] using hx
  have hy' : y < s.keys.length := by simpa [Pprd.keys] using hy
  rw [job_eq_getElem hx, job_eq_getElem hy] at he
  have : s.keys[x] = s.keys[y] := by simpa [Pprd.keys] using he
  exact h.getElem_inj_iff.1 this

/-- One act keeps every job's key and file its own. -/
theorem Named.act {a : Act} {s t : Pprd} (h : Named s) (hp : NamePermit s a) (hc : Change a s t) :
    Named t := by
  have hk := hc.keys
  have hgroup : ∀ k : JobKey, (∀ g, (t.groups g).core = (s.groups g).core) →
      (t.groups (destidToGindex k.1)).name = (s.groups (destidToGindex k.1)).name ∧
        ((s.groups (destidToGindex k.1)).deleted → (t.groups (destidToGindex k.1)).deleted) :=
    fun k he => ⟨congrArg GroupCore.name (he _), fun hd =>
      (congrArg GroupCore.deleted (he _)).trans hd⟩
  -- Acts that change neither keys nor files nor destinations.
  have keep : a.keepsNames → a ≠ .ppr → (∀ l, a.keys l = l) → (∀ f, a.files s f = f) → Named t := by
    intro h1 h2 h3 h4
    have hf := hc.files h2
    rw [h4] at hf
    rw [h3] at hk
    exact h.of_sameNames (hc.sameNames h1) (hk ▸ h.nodup) (fun _ hm => hk ▸ hm)
      (fun name hs _ => (hf name).trans hs) (hc.fifo h2)
  cases a with
  | ppr => exact hp.elim
  | purge x y =>
    obtain ⟨hx, -, hy, hl⟩ := hc.ok
    obtain ⟨hyl, hyk⟩ := findJob_eq_some hy
    have hd : (s.job y).destid = (s.job x).destid := congrArg Prod.fst hyk
    exact h.of_erase (hc.sameNames rfl) (keys_getElem? s hyl)
      (show destidLive s (s.job y).destid from hd ▸ hl) hk (hc.files (by simp)) (hc.fifo (by simp))
  | exitRemove p e y =>
    obtain ⟨-, -, -, hy, hl⟩ := hc.ok
    obtain ⟨hyl, hyk⟩ := findJob_eq_some hy
    exact h.of_erase (hc.sameNames rfl) (keys_getElem? s hyl)
      (show destidLive s (s.job y).key.1 from hyk ▸ hl) hk (hc.files (by simp)) (hc.fifo (by simp))
  | insert x q =>
    obtain ⟨hx, hd, hfree, hfile⟩ := hp
    exact h.of_insert (hc.sameNames rfl) hd hfree hfile hk (by simpa [Pprd.keys] using hx)
      (hc.files (by simp)) (hc.fifo (by simp))
  | rush x newpos =>
    have hx : x < s.keys.length := by
      rw [Pprd.keys, List.length_map]
      exact hc.ok
    have hperm : t.keys.Perm s.keys := by
      have hcons := List.getElem_cons_eraseIdx_perm hx
      rw [hk]
      simp only [Act.keys, List.getD_eq_getElem _ _ hx]
      split_ifs
      · exact hcons
      · exact (List.perm_append_singleton _ _).trans hcons
    exact h.of_sameNames (hc.sameNames rfl) (hperm.nodup_iff.2 h.nodup) hperm.subset
      (fun name hs _ => (hc.files (by simp) name).trans hs) (hc.fifo (by simp))
  | move x d n =>
    obtain ⟨hx, -⟩ := hc.ok
    have hkx := keys_getElem? s hx
    have hf := hc.files (by simp)
    simp only [Act.files] at hf
    by_cases hd : (s.job x).destid = d
    · simp only [if_pos hd] at hf
      have hsame : t.keys = s.keys := by
        rw [hk]
        refine List.ext_getElem? fun y => ?_
        simp only [Act.keys, List.getElem?_modify]
        by_cases hxy : x = y
        · subst hxy
          simp [hkx, QEntry.key, hd]
        · simp [hxy]
      exact h.of_sameNames (hc.sameNames rfl) (hsame ▸ h.nodup) (fun _ hm => hsame ▸ hm)
        (fun name hs _ => (hf name).trans hs) (hc.fifo (by simp))
    · obtain ⟨hl, hok, hn, hfree⟩ := hp hd
      have hmem := List.mem_of_getElem? hkx
      have hold : (s.disk.queue (queueFileName s (s.job x))).isSome :=
        h.files _ (.inl ⟨_, hmem, hl, rfl⟩)
      simp only [if_neg hd, hold, if_true] at hf
      refine h.of_modify (hc.sameNames rfl) hkx hl hd hok hfree hk (fun name => ?_)
        (hc.fifo (by simp))
      rw [hf name, ← hn]
      rfl
  | newPrinter p c =>
    have hcount : t.printerCount = max s.printerCount (p + 1) := hc.printerCount
    have hle : t.printerCount ≤ maxPrinters := by
      obtain ⟨hslot, hne, -⟩ := hc.ok
      have := h.count
      rcases hslot with hp | hp <;> omega
    refine h.of_load hk (hc.files (by simp)) (hc.fifo (by simp)) (by omega) hle hc.groupCount.ge
      (fun k hkm _ => ?_) fun k _ _ => hgroup k hc.group
    exact hc.core_ne fun e => hp k hkm (Option.some.inj e).symm
  | deletePrinter p =>
    refine h.of_load hk (hc.files (by simp)) (hc.fifo (by simp)) hc.printerCount.ge
      (hc.printerCount.trans_le h.count) hc.groupCount.ge (fun k hkm hd => ?_)
      fun k _ _ => hgroup k hc.group
    exact hc.core_ne fun e => hd (congrArg PrinterCore.status (hc.core_of e))
  | newGroup g c =>
    have hcount : t.groupCount = max s.groupCount (g + 1) := hc.groupCount
    refine h.of_load hk (hc.files (by simp)) (hc.fifo (by simp)) hc.printerCount.ge
      (hc.printerCount.trans_le h.count) (by omega) (fun k _ _ => hc.core_ne (by simp [Act.printer?]))
      fun k hkm hm => ?_
    have hne : g ≠ destidToGindex k.1 := by
      intro hg
      have hk1 : k.1 ≠ destidByGindex g := hp k hkm
      simp only [destidByGindex, hg, destidToGindex] at hk1
      omega
    have he : (t.groups (destidToGindex k.1)).core = (s.groups (destidToGindex k.1)).core := by
      have := hc.group (destidToGindex k.1)
      simpa [Act.group?, hne] using this
    exact ⟨congrArg GroupCore.name he, fun hd => (congrArg GroupCore.deleted he).trans hd⟩
  | group g c =>
    obtain ⟨-, -, hname, hdel⟩ := hc.ok
    refine h.of_load hk (hc.files (by simp)) (hc.fifo (by simp)) hc.printerCount.ge
      (hc.printerCount.trans_le h.count) hc.groupCount.ge
      (fun k _ _ => hc.core_ne (by simp [Act.printer?])) fun k hkm hm => ?_
    generalize destidToGindex k.1 = g'
    have he := hc.group g'
    simp only [Act.group?] at he
    split_ifs at he with hg
    · subst hg
      exact ⟨(congrArg GroupCore.name he).trans hname,
        fun hd => (congrArg GroupCore.deleted he).trans (hdel hd)⟩
    · exact ⟨congrArg GroupCore.name he, fun hd => (congrArg GroupCore.deleted he).trans hd⟩
  | _ => exact keep rfl (by simp) (fun _ => rfl) fun _ => rfl

end Ppr
