import Ppr.Lib.Lists
import Ppr.Lprsrv.ControlFile

/-!
# What becomes of a received job

`do_request_take_job()` does not look at the names of the data files: it counts, and takes the first
data file for the first file that the control file has lines for.  The count, the order and the
lengths decide whether each data file gets what is said for its name.
-/

namespace Ppr.Lprsrv

/-! ## What is received -/

/-- A data file that was received. -/
structure Sent where
  size : ℕ
  name : List Byte
  transfer : Transfer

namespace Sent

/-- The file's own bytes. -/
def bytes (d : Sent) : List Byte := d.transfer.sent.take d.size

/-- The file was received completely. -/
def Complete (d : Sent) : Prop :=
  d.transfer.space = true ∧ d.size ≤ d.transfer.sent.length ∧ d.size ≤ d.transfer.room ∧
    d.transfer.last = some 0

/-- What is to be handed to ppr. -/
def handed (lines : List (List Byte)) (d : Sent) : Handed where
  bytes := d.bytes
  type := typeFor lines d.name
  copies := if 1 < copiesFor lines d.name then copiesFor lines d.name else -1
  name := (originalFor lines d.name).map shownName

end Sent

def Subcommand.sent? : Subcommand → Option Sent
  | .data size name t => some ⟨size, name, t⟩
  | _ => none

def Subcommand.control? : Subcommand → Option (List Byte)
  | .control text => some text
  | _ => none

/-- The data files. -/
def sentOf (cmds : List Subcommand) : List Sent := cmds.filterMap Subcommand.sent?

/-- The control files. -/
def controlsOf (cmds : List Subcommand) : List (List Byte) := cmds.filterMap Subcommand.control?

/-- The lines of the control files. -/
def saidBy (cmds : List Subcommand) : List (List Byte) := (controlsOf cmds).flatMap linesOf

/-- Nothing was aborted, and no transfer has failed. -/
structure Received (cmds : List Subcommand) : Prop where
  noAbort : .abort ∉ cmds
  temp : .noTemp ∉ cmds
  complete : ∀ d ∈ sentOf cmds, d.Complete

/-- Every file that the control file names was received. -/
def AllNamed (cmds : List Subcommand) : Prop :=
  ∀ f ∈ (saidBy cmds).filterMap fileLine?, ∃ d ∈ sentOf cmds, d.name = f.2

/-- What was dispatched is what was to be dispatched. -/
structure Proper (cmds : List Subcommand) (handed : List Handed) : Prop where
  received : Received cmds
  allNamed : AllNamed cmds
  handed : handed = (sentOf cmds).map (Sent.handed (saidBy cmds))

/-- A job that can be dispatched. -/
def Dispatchable (cmds : List Subcommand) : Prop :=
  Received cmds ∧ controlsOf cmds ≠ [] ∧ AllNamed cmds

/-- A job is dispatched only when all of it was received, and then properly; and it is dispatched
when all of it was received. -/
def TakenWell (cmds : List Subcommand) : Prop :=
  ∃ out unread, doRequestTakeJob .start cmds = .ok (out, unread) ∧
    match out with
    | some handed => ∃ read, cmds = read ++ unread ∧ Proper read handed
    | none => ∀ read, read <+: cmds → ¬ Dispatchable read

/-! ## The condition -/

/-- The files on hand are as many as there are "U" lines. -/
def Due (cmds : List Subcommand) : Prop :=
  controlsOf cmds ≠ [] ∧ (saidBy cmds).countP isUnlink ≤ (sentOf cmds).length

/-- There is at most one control file, and it is well formed. -/
def OneControl (cmds : List Subcommand) : Prop :=
  controlsOf cmds = [] ∨ ∃ text entries, controlsOf cmds = [text] ∧ Says text entries

/-- The data files came in the order of the control file, all complete and none of them empty. -/
def InOrder (cmds : List Subcommand) : Prop :=
  ∃ text entries, controlsOf cmds = [text] ∧ Says text entries ∧
    (sentOf cmds).map Sent.name = entries.map Entry.name ∧ .noTemp ∉ cmds ∧
    ∀ d ∈ sentOf cmds, d.Complete ∧ 0 < d.size

/-- Up to the moment when the files on hand are as many as the "U" lines there is at most one control
file, a well formed one, and at that moment the data files have come in its order. -/
def Orderly (cmds : List Subcommand) : Prop :=
  ∀ read, read <+: cmds → .abort ∉ read → (∀ q, q <+: read → Due q → q = read) →
    OneControl read ∧ (Due read → InOrder read)

/-! ## The subcommand loop -/

/-- What was written to the temporary file. -/
def Sent.written (d : Sent) : List Byte := (receiveDataFile d.size d.transfer).2

/-- The length that was noted. -/
def Sent.length (d : Sent) : ℕ := (receiveDataFile d.size d.transfer).1

theorem Sent.Complete.received {d : Sent} (h : d.Complete) :
    receiveDataFile d.size d.transfer = (d.size, d.bytes) ∧ d.bytes.length = d.size := by
  obtain ⟨hspace, hsent, hroom, hlast⟩ := h
  have hlen : (d.transfer.sent.take d.size).length = d.size := by
    rw [List.length_take, Nat.min_eq_left hsent]
  refine ⟨?_, hlen⟩
  simp only [receiveDataFile, hspace, hlast, hlen, List.length_take, if_true]
  rw [List.take_of_length_le (by omega)]
  simp [Nat.min_eq_right hroom, Sent.bytes]

/-- What holds in the subcommand loop. -/
structure LoopInv (read : List Subcommand) (j : Job) : Prop where
  onHand : j.filesOnHand = (sentOf read).length
  temp : j.tempfile.getD [] = (sentOf read).flatMap Sent.written
  place : ∀ k d, (sentOf read)[k]? = some d →
    (j.dataFiles k).start = (((sentOf read).take k).flatMap Sent.written).length ∧
      (j.dataFiles k).length = d.length
  noControl : controlsOf read = [] →
    j.upr = false ∧ j.filesToUnlink = 0 ∧ ∀ i, (j.dataFiles i).Name = .null
  control : ∀ text es, controlsOf read = [text] → Says text es →
    j.upr = true ∧ j.filesToUnlink = es.length ∧ ∀ k e, es[k]? = some e → FileSays (j.dataFiles k) e

theorem LoopInv.start : LoopInv [] .start where
  onHand := rfl
  temp := rfl
  place := fun k d h => by cases h
  noControl := fun _ => ⟨rfl, rfl, fun _ => rfl⟩
  control := fun text es h => by cases h

theorem store_dataFiles (j : Job) (length : ℕ) (written : List Byte) (i : ℕ) :
    (j.store length written).dataFiles i =
      { j.dataFiles i with
        start := if i = j.filesOnHand then (j.tempfile.getD []).length else (j.dataFiles i).start
        length := if i = j.filesOnHand then length else (j.dataFiles i).length } := by
  simp only [Job.store, Function.update_apply]
  split_ifs with hi
  · rw [hi]
  · rfl

section Step

variable {read : List Subcommand} {j : Job} (h : LoopInv read j)

include h

/-- A subcommand that is not about a file. -/
theorem LoopInv.ignored {cmd : Subcommand} (hsent : cmd.sent? = none) (hcontrol : cmd.control? = none) :
    LoopInv (read ++ [cmd]) j := by
  have hs : sentOf (read ++ [cmd]) = sentOf read := by
    rw [sentOf, List.filterMap_append, List.filterMap_cons_none hsent]
    exact List.append_nil _
  have hc : controlsOf (read ++ [cmd]) = controlsOf read := by
    rw [controlsOf, List.filterMap_append, List.filterMap_cons_none hcontrol]
    exact List.append_nil _
  refine ⟨?_, ?_, ?_, ?_, ?_⟩
  · rw [hs]
    exact h.onHand
  · rw [hs]
    exact h.temp
  · rw [hs]
    exact h.place
  · rw [hc]
    exact h.noControl
  · rw [hc]
    exact h.control

theorem LoopInv.data (size : ℕ) (name : List Byte) (t : Transfer) :
    LoopInv (read ++ [.data size name t])
      (j.store (receiveDataFile size t).1 (receiveDataFile size t).2) := by
  have hs : sentOf (read ++ [.data size name t]) = sentOf read ++ [⟨size, name, t⟩] :=
    List.filterMap_append ..
  have hc : controlsOf (read ++ [.data size name t]) = controlsOf read :=
    (List.filterMap_append ..).trans (List.append_nil _)
  refine ⟨?_, ?_, fun k d hk => ?_, fun hnone => ?_, fun text es hcontrol hsay => ?_⟩
  · rw [hs, List.length_append, ← h.onHand]
    rfl
  · rw [hs, List.flatMap_append, ← h.temp, List.flatMap_singleton]
    rfl
  · rw [hs] at hk ⊢
    rw [store_dataFiles, h.onHand, h.temp]
    by_cases hlt : k < (sentOf read).length
    · rw [List.getElem?_append_left hlt] at hk
      rw [List.take_append_of_le_length hlt.le]
      simp only [hlt.ne, if_false]
      exact h.place k d hk
    · -- this is the one that was stored
      have hk' : k = (sentOf read).length := by
        have := (List.getElem?_eq_some_iff.1 hk).1
        rw [List.length_append, List.length_singleton] at this
        omega
      subst hk'
      rw [List.getElem?_concat_length] at hk
      rw [← Option.some.inj hk, List.take_left]
      simp only [if_true, true_and]
      rfl
  · rw [hc] at hnone
    obtain ⟨hupr, hunlink, hnull⟩ := h.noControl hnone
    refine ⟨hupr, hunlink, fun i => ?_⟩
    rw [store_dataFiles]
    exact hnull i
  · rw [hc] at hcontrol
    obtain ⟨hupr, hunlink, hfiles⟩ := h.control text es hcontrol hsay
    refine ⟨hupr, hunlink, fun k e hk => ?_⟩
    rw [store_dataFiles]
    exact ⟨(hfiles k e hk).type, (hfiles k e hk).copies, (hfiles k e hk).name⟩

/-- The control file of the job. -/
theorem LoopInv.controlFile {text : List Byte} {es : List Entry} (hnone : controlsOf read = [])
    (hsay : Says text es) :
    ∃ j', receiveControlFile text j = .ok j' ∧ LoopInv (read ++ [.control text]) j' := by
  obtain ⟨hupr, hunlink, hnull⟩ := h.noControl hnone
  have hs : sentOf (read ++ [.control text]) = sentOf read :=
    (List.filterMap_append ..).trans (List.append_nil _)
  have hc : controlsOf (read ++ [.control text]) = [text] := by
    rw [controlsOf, List.filterMap_append]
    exact (congrArg (· ++ [text]) hnone).trans rfl
  -- no name was there to be given back
  have hfreed : (fun i => { j.dataFiles i with Name := (j.dataFiles i).Name.free }) = j.dataFiles := by
    funext i
    have hfree : (j.dataFiles i).Name.free = (j.dataFiles i).Name := by
      rw [hnull i]
      rfl
    rw [hfree]
  obtain ⟨c, hrun, hunlinked, hplace, -⟩ := hsay.read hnull j.filesToUnlink
  refine ⟨{ j with dataFiles := c.dataFiles, filesToUnlink := c.filesUnlinked, upr := true }, ?_,
    ⟨?_, ?_, fun k d hk => ?_, fun hnil => ?_, fun text' es' hcontrol hsay' => ?_⟩⟩
  · rw [receiveControlFile, if_neg hsay.1]
    simp only [hfreed, hrun]
    rfl
  · rw [hs]
    exact h.onHand
  · rw [hs]
    exact h.temp
  · rw [hs] at hk ⊢
    exact ⟨(hplace k).1.trans (h.place k d hk).1, (hplace k).2.trans (h.place k d hk).2⟩
  · rw [hc] at hnil
    cases hnil
  · rw [hc] at hcontrol
    cases hcontrol
    obtain ⟨c', hrun', hunlinked', -, hfiles'⟩ := hsay'.read hnull j.filesToUnlink
    cases hrun.symm.trans hrun'
    rw [hunlink, Nat.zero_add] at hunlinked'
    exact ⟨rfl, hunlinked', hfiles'⟩

/-- One more subcommand. -/
theorem LoopInv.take {cmd : Subcommand} (hone : OneControl (read ++ [cmd]))
    (hlimit : (sentOf (read ++ [cmd])).length ≤ maxFilesPerJob) :
    ∃ j', take j cmd = .ok j' ∧ LoopInv (read ++ [cmd]) j' := by
  cases cmd with
  | abort => exact ⟨j, rfl, h.ignored rfl rfl⟩
  | noTemp => exact ⟨j, rfl, h.ignored rfl rfl⟩
  | unrecognized => exact ⟨j, rfl, h.ignored rfl rfl⟩
  | data size name t =>
    have hs : sentOf (read ++ [.data size name t]) = sentOf read ++ [⟨size, name, t⟩] :=
      List.filterMap_append ..
    have hroom : j.filesOnHand < maxFilesPerJob := by
      rw [hs, List.length_append, List.length_singleton] at hlimit
      rw [h.onHand]
      omega
    exact ⟨_, if_pos hroom, h.data size name t⟩
  | control text =>
    have hc : controlsOf (read ++ [.control text]) = controlsOf read ++ [text] :=
      List.filterMap_append ..
    rcases hone with hnil | ⟨text', es, hcontrols, hsay⟩
    · rw [hc] at hnil
      exact absurd hnil (by simp)
    · rw [hc, List.append_eq_singleton_iff] at hcontrols
      rcases hcontrols with ⟨hnone, htext⟩ | ⟨-, hnil⟩
      · obtain rfl := (List.cons.inj htext).1
        exact h.controlFile hnone hsay
      · cases hnil

/-- The test after every subcommand. -/
theorem LoopInv.due_iff (hone : OneControl read) :
    (j.upr && decide (j.filesToUnlink ≤ j.filesOnHand)) = true ↔ Due read := by
  rcases hone with hnone | ⟨text, es, hcontrols, hsay⟩
  · rw [(h.noControl hnone).1]
    simp [Due, hnone]
  · obtain ⟨hupr, hunlink, -⟩ := h.control text es hcontrols hsay
    rw [hupr, hunlink, h.onHand, Due, saidBy, hcontrols, List.flatMap_singleton, hsay.unlinks]
    simp

end Step

/-! ## Dispatching -/

/-- How `uprint` is told the number of copies. -/
def copiesArg (copies : ℕ) : ℤ := if 1 < copies then copies else -1

/-- Dispatching this file hands this to ppr. -/
structure Hands (tempfile : List Byte) (f : DataFile) (x : Handed) : Prop where
  name : f.Name.argument = .ok x.name
  bytes : dispatchFilesRun tempfile f.start f.length = (x.bytes, true)
  type : x.type = f.type
  copies : x.copies = copiesArg f.copies
  reasonable : f.copies ≤ 9999

theorem uprintSetCopies_copiesArg {copies : ℕ} (h : copies ≤ 9999) (current : ℤ) :
    uprintSetCopies current (copiesArg copies) = copiesArg copies := by
  apply if_neg
  unfold copiesArg
  split_ifs <;> omega

/-- The arguments are always those for the file, set anew or not. -/
theorem dispatchFiles_eq {tempfile : List Byte} {files : ℕ → DataFile} {xs : List Handed} {findex : ℕ}
    (hx : ∀ k x, xs[k]? = some x → Hands tempfile (files (findex + k)) x) {lastSet : ℕ} {args : ℤ × Byte}
    (hargs : findex = 0 ∨ args = (copiesArg (files lastSet).copies, (files lastSet).type)) :
    dispatchFiles tempfile files xs.length findex lastSet args = .ok xs := by
  induction xs generalizing findex lastSet args with
  | nil => rfl
  | cons x xs ih =>
    have hhands : Hands tempfile (files findex) x := hx 0 x rfl
    have hrest : ∀ k x, xs[k]? = some x → Hands tempfile (files (findex + 1 + k)) x := by
      intro k x hk
      rw [Nat.add_assoc, Nat.add_comm 1 k]
      exact hx (k + 1) x hk
    set changed := decide (findex = 0 ∨ (files findex).copies ≠ (files lastSet).copies ∨
      (files findex).type ≠ (files lastSet).type) with hchanged
    have hset : (if changed then (uprintSetCopies args.1 (copiesArg (files findex).copies),
        (files findex).type) else args) = (copiesArg (files findex).copies, (files findex).type) := by
      by_cases hc : changed = true
      · rw [if_pos hc, uprintSetCopies_copiesArg hhands.reasonable]
      · rw [if_neg hc]
        simp only [hchanged, decide_eq_true_eq, not_or, not_not] at hc
        rw [hargs.resolve_left hc.1, hc.2.1, hc.2.2]
    have hlast : (files (if changed then findex else lastSet)).copies = (files findex).copies ∧
        (files (if changed then findex else lastSet)).type = (files findex).type := by
      by_cases hc : changed = true
      · rw [if_pos hc]
        exact ⟨rfl, rfl⟩
      · rw [if_neg hc]
        simp only [hchanged, decide_eq_true_eq, not_or, not_not] at hc
        exact ⟨hc.2.1.symm, hc.2.2.symm⟩
    have hargs' : (copiesArg (files findex).copies, (files findex).type) =
        (copiesArg (files (if changed then findex else lastSet)).copies,
          (files (if changed then findex else lastSet)).type) := by
      rw [hlast.1, hlast.2]
    have hih := ih hrest (.inr hargs')
    have hfirst : (⟨x.bytes, (files findex).type, copiesArg (files findex).copies, x.name⟩ : Handed) =
        x := by
      rw [← hhands.type, ← hhands.copies]
    have hstep (a : ℤ × Byte) (ha : (if changed then (uprintSetCopies args.1
        (copiesArg (files findex).copies), (files findex).type) else args) = a) :
        dispatchFiles tempfile files (xs.length + 1) findex lastSet args =
          (⟨x.bytes, a.2, a.1, x.name⟩ :: ·) <$> dispatchFiles tempfile files xs.length (findex + 1)
            (if changed then findex else lastSet) a := by
      subst ha
      rw [dispatchFiles]
      dsimp only
      rw [hhands.name, hhands.bytes]
      rfl
    rw [List.length_cons, hstep _ hset, hih]
    exact congrArg (fun y => Except.ok (y :: xs)) hfirst

theorem FileSays.argument {f : DataFile} {e : Entry} (h : FileSays f e) :
    f.Name.argument = .ok (e.original.map shownName) := by
  rw [h.name]
  cases e.original with
  | none => rfl
  | some s => exact argument_namePtr s

/-- The data file at a place is in the temporary file where the place says. -/
theorem LoopInv.bytes {read : List Subcommand} {j : Job} (h : LoopInv read j) {k : ℕ} {d : Sent}
    (hk : (sentOf read)[k]? = some d) (hd : d.Complete) (hpos : 0 < d.size) :
    dispatchFilesRun (j.tempfile.getD []) (j.dataFiles k).start (j.dataFiles k).length =
      (d.bytes, true) := by
  obtain ⟨hreceived, hlen⟩ := hd.received
  obtain ⟨hstart, hlength⟩ := h.place k d hk
  have hwritten : d.written = d.bytes := congrArg Prod.snd hreceived
  have hslice := List.flatMap_slice (f := Sent.written) hk
  rw [hwritten, hlen] at hslice
  rw [hstart, hlength, Sent.length, hreceived, dispatchFilesRun, h.temp, hslice, hlen]
  simp [hpos.ne']

theorem LoopInv.dispatch {read : List Subcommand} {j : Job} (h : LoopInv read j)
    (horder : InOrder read) :
    dispatchFiles (j.tempfile.getD []) j.dataFiles j.filesOnHand 0 0 (-1, 0) =
      .ok ((sentOf read).map (Sent.handed (saidBy read))) := by
  obtain ⟨text, es, hcontrols, hsay, hnames, -, hsent⟩ := horder
  obtain ⟨-, -, hfiles⟩ := h.control text es hcontrols hsay
  have hsaid : saidBy read = linesOf text := by
    rw [saidBy, hcontrols, List.flatMap_singleton]
  rw [h.onHand, ← List.length_map (Sent.handed (saidBy read))]
  refine dispatchFiles_eq (fun k x hk => ?_) (.inl rfl)
  rw [List.getElem?_map] at hk
  obtain ⟨d, hd, rfl⟩ := Option.map_eq_some_iff.1 hk
  rw [Nat.zero_add]
  -- the entry at the place of the data file is the one for its name
  obtain ⟨e, he, hname⟩ : ∃ e, es[k]? = some e ∧ e.name = d.name := by
    have := congrArg (fun l => l[k]?) hnames
    simp only [List.getElem?_map, hd, Option.map_some] at this
    exact Option.map_eq_some_iff.1 this.symm
  have hmem := List.mem_of_getElem? he
  obtain ⟨htype, hcopies, horiginal⟩ := hsay.given hmem
  obtain ⟨before, rest, -, -, hblocks⟩ := hsay.lines
  have hsayk := hfiles k e he
  obtain ⟨hcomplete, hpos⟩ := hsent d (List.mem_of_getElem? hd)
  refine ⟨?_, h.bytes hd hcomplete hpos, ?_, ?_, ?_⟩
  · rw [hsayk.argument, Sent.handed, hsaid, ← hname, horiginal]
  · rw [hsayk.type, Sent.handed, hsaid, ← hname, htype]
  · rw [hsayk.copies, Sent.handed, hsaid, ← hname, hcopies]
    rfl
  · rw [hsayk.copies]
    exact (hblocks.valid e hmem).reasonable

/-- A job all of which was received is due. -/
theorem OneControl.due {read : List Subcommand} (hone : OneControl read) (h : Dispatchable read) :
    Due read := by
  obtain ⟨-, hcontrols, hnamed⟩ := h
  refine ⟨hcontrols, ?_⟩
  obtain ⟨text, es, htext, hsay⟩ := hone.resolve_left hcontrols
  have hsaid : saidBy read = linesOf text := by
    rw [saidBy, htext, List.flatMap_singleton]
  rw [hsaid, hsay.unlinks, ← List.length_map Entry.name, ← List.length_map Sent.name]
  obtain ⟨before, rest, -, -, hblocks⟩ := hsay.lines
  apply (hblocks.names_nodup.subperm fun name hname => ?_).length_le
  obtain ⟨e, he, rfl⟩ := List.mem_map.1 hname
  obtain ⟨d, hd, hdname⟩ := hnamed (e.letter, e.name) (by
    rw [hsaid]
    exact hsay.fileLines.2 ⟨e, he, rfl⟩)
  exact List.mem_map.2 ⟨d, hd, hdname⟩

theorem InOrder.proper {read : List Subcommand} (horder : InOrder read) (habort : .abort ∉ read) :
    Proper read ((sentOf read).map (Sent.handed (saidBy read))) := by
  obtain ⟨text, es, hcontrols, hsay, hnames, htemp, hsent⟩ := horder
  refine ⟨⟨habort, htemp, fun d hd => (hsent d hd).1⟩, fun f hf => ?_, rfl⟩
  rw [saidBy, hcontrols, List.flatMap_singleton] at hf
  obtain ⟨e, he, rfl⟩ := hsay.fileLines.1 hf
  have hmem : e.name ∈ (sentOf read).map Sent.name := by
    rw [hnames]
    exact List.mem_map_of_mem he
  obtain ⟨d, hd, hname⟩ := List.mem_map.1 hmem
  exact ⟨d, hd, hname⟩

theorem Orderly.not_dispatchable {cmds read q : List Subcommand} (hcmds : Orderly cmds)
    (hread : read <+: cmds) (habort : .abort ∉ read) (hdue : ∀ q, q <+: read → ¬ Due q)
    (hq : q <+: read) : ¬ Dispatchable q := by
  intro hdis
  have hone := (hcmds q (hq.trans hread) (fun hmem => habort (hq.subset hmem))
    fun q' hq' hdue' => absurd hdue' (hdue q' (hq'.trans hq))).1
  exact hdue q hq (hone.due hdis)

/-- From anywhere in the loop, as long as the job was not due. -/
theorem takenWell_from {cmds : List Subcommand} (hcmds : Orderly cmds)
    (hlimit : (sentOf cmds).length ≤ maxFilesPerJob) {rest read : List Subcommand} {j : Job}
    (hread : cmds = read ++ rest) (h : LoopInv read j) (habort : .abort ∉ read)
    (hdue : ∀ q, q <+: read → ¬ Due q) :
    ∃ out unread, doRequestTakeJob j rest = .ok (out, unread) ∧
      match out with
      | some handed => ∃ read, cmds = read ++ unread ∧ Proper read handed
      | none => ∀ read, read <+: cmds → ¬ Dispatchable read := by
  induction rest generalizing read j with
  | nil =>
    rw [List.append_nil] at hread
    subst hread
    exact ⟨none, [], rfl, fun q hq => hcmds.not_dispatchable (List.prefix_refl _) habort hdue hq⟩
  | cons cmd rest ih =>
    by_cases hcmd : cmd = .abort
    · subst hcmd
      have hpre : read <+: cmds := ⟨_, hread.symm⟩
      refine ⟨none, rest, rfl, fun q hq => ?_⟩
      rcases List.prefix_or_prefix_of_prefix hq hpre with hq' | ⟨more, rfl⟩
      · exact hcmds.not_dispatchable hpre habort hdue hq'
      · rw [hread, List.prefix_append_right_inj] at hq
        cases more with
        | nil =>
          rw [List.append_nil]
          exact hcmds.not_dispatchable hpre habort hdue (List.prefix_refl _)
        | cons c more =>
          obtain rfl := (List.cons_prefix_cons.1 hq).1
          intro hdis
          exact hdis.1.noAbort (by simp)
    · have hread' : cmds = (read ++ [cmd]) ++ rest := by
        rw [hread, List.append_assoc]
        rfl
      have habort' : .abort ∉ read ++ [cmd] := by
        simp [habort, Ne.symm hcmd]
      -- the job is due now, or not yet
      have hfirst : ∀ q, q <+: read ++ [cmd] → Due q → q = read ++ [cmd] := by
        intro q hq hq'
        rcases List.prefix_concat_iff.1 hq with rfl | hq
        · rfl
        · exact absurd hq' (hdue q hq)
      have hpre : read ++ [cmd] <+: cmds := ⟨rest, hread'.symm⟩
      obtain ⟨hone, horder⟩ := hcmds _ hpre habort' hfirst
      have hlimit' : (sentOf (read ++ [cmd])).length ≤ maxFilesPerJob := by
        exact (hpre.filterMap _).length_le.trans hlimit
      obtain ⟨j', htake, hinv⟩ := h.take hone hlimit'
      have hloop : doRequestTakeJob j (cmd :: rest) = (do
          let j ← Lprsrv.take j cmd
          if j.upr && decide (j.filesToUnlink ≤ j.filesOnHand) then
            let handed ← dispatchFiles (j.tempfile.getD []) j.dataFiles j.filesOnHand 0 0 (-1, 0)
            return (some handed, rest)
          else doRequestTakeJob j rest) := by
        cases cmd with
        | abort => exact absurd rfl hcmd
        | control text => rfl
        | data size name t => rfl
        | noTemp => rfl
        | unrecognized => rfl
      rw [hloop, htake]
      by_cases hdue' : Due (read ++ [cmd])
      · have hproper := (horder hdue').proper habort'
        refine ⟨some _, rest, ?_, read ++ [cmd], hread', hproper⟩
        show (if _ then _ else _) = _
        rw [if_pos ((hinv.due_iff hone).2 hdue'), hinv.dispatch (horder hdue')]
        rfl
      · have hdueAll : ∀ q, q <+: read ++ [cmd] → ¬ Due q := by
          intro q hq hq'
          exact hdue' (hfirst q hq hq' ▸ hq')
        obtain ⟨out, unread, hrun, hout⟩ := ih hread' hinv habort' hdueAll
        refine ⟨out, unread, ?_, hout⟩
        show (if _ then _ else _) = _
        rw [if_neg (fun hb => hdue' ((hinv.due_iff hone).1 hb))]
        exact hrun

/-- When up to the moment when the job is due there is at most one control file, a well formed one,
and the data files come complete, not empty and in its order, then each of them is handed to ppr with
what the control file gives for its name; and no job is dispatched before all of it is received. -/
theorem takenWell {cmds : List Subcommand} (hlimit : (sentOf cmds).length ≤ maxFilesPerJob)
    (h : Orderly cmds) : TakenWell cmds := by
  refine takenWell_from h hlimit rfl .start (by simp) fun q hq => ?_
  rw [List.prefix_nil.1 hq]
  exact fun hdue => hdue.1 rfl

section Runs

/-- A control file for one file, and the file. -/
private def oneFile (original : List Byte) (t : Transfer) : List Subcommand :=
  [.control ([102, 100, 102, 65, 10, 85, 100, 102, 65, 10, 78] ++ original ++ [10]),
    .data 3 [100, 102, 65] t]

private theorem says_oneFile : Says [102, 100, 102, 65, 10, 85, 100, 102, 65, 10, 78, 97, 10]
    [⟨102, [100, 102, 65], 1, some [97]⟩] := by
  refine ⟨by decide, [], [[102, 100, 102, 65], [85, 100, 102, 65], [78, 97]], rfl, by simp, ?_,
    by decide⟩
  have nothing : Blocks [] [] := .nil
  refine .cons ⟨by decide, by decide, by decide, by decide, by decide, by decide⟩
    ⟨[[85, 100, 102, 65], [78, 97]], rfl, by decide, by decide, by decide⟩ ?_ ?_ nothing
  · simp
  · simp

theorem takenWell_oneFile : ∃ out unread,
    doRequestTakeJob .start (oneFile [97] ⟨true, [65, 66, 67], 1000, some 0⟩) = .ok (out, unread) ∧
      TakenWell (oneFile [97] ⟨true, [65, 66, 67], 1000, some 0⟩) ∧
      out = some [⟨[65, 66, 67], 102, -1, some [97]⟩] := by
  refine ⟨_, _, rfl, takenWell (by decide) ?_, rfl⟩
  intro read hread _ _
  have hread := (List.mem_inits _ _).2 hread
  simp only [oneFile, List.inits, List.map_cons, List.map_nil, List.mem_cons, List.not_mem_nil,
    or_false] at hread
  rcases hread with rfl | rfl | rfl
  · exact ⟨.inl rfl, fun hdue => absurd rfl hdue.1⟩
  · refine ⟨.inr ⟨_, _, rfl, says_oneFile⟩, fun hdue => absurd hdue.2 ?_⟩
    decide
  · refine ⟨.inr ⟨_, _, rfl, says_oneFile⟩, fun _ => ⟨_, _, rfl, says_oneFile, rfl, by simp, ?_⟩⟩
    intro d hd
    obtain rfl := List.mem_singleton.1 hd
    exact ⟨⟨rfl, by decide, by decide, rfl⟩, by decide⟩

/-- The connection is lost within the data file: what has come of it is printed. -/
theorem partial_dispatched :
    ¬ ∀ cmds, (sentOf cmds).length ≤ maxFilesPerJob → TakenWell cmds := by
  intro hall
  obtain ⟨out, unread, hrun, hout⟩ := hall (oneFile [97] ⟨true, [65], 1000, none⟩) (by decide)
  have hrun' : doRequestTakeJob .start (oneFile [97] ⟨true, [65], 1000, none⟩) =
      .ok (some [⟨[65], 102, -1, some [97]⟩], []) := rfl
  cases hrun.symm.trans hrun'
  obtain ⟨read, hread, hproper⟩ := hout
  rw [List.append_nil] at hread
  subst hread
  have hcomplete := hproper.received.complete ⟨3, [100, 102, 65], ⟨true, [65], 1000, none⟩⟩
    List.mem_cons_self
  exact absurd hcomplete.2.1 (by decide)

end Runs

end Ppr.Lprsrv
