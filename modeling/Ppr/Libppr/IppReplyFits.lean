import Ppr.Libppr.IppReplyRead

/-!
# The response as a whole

Decoded by the grammar, a response is the one that was asked for exactly if it fits.
-/

namespace Ppr

open Outcome

/-! ## One group -/

theorem length_sentOf (root : List Byte) (e : Entry) : (sentOf root e).length ≤ 1 := by
  unfold sentOf
  cases hs : sent root e.attr with
  | error _ => exact Nat.zero_le 1
  | ok l =>
    obtain ⟨ds, -, he⟩ := bind_eq_ok hs
    split_ifs at he
    · cases he
      exact Nat.zero_le 1
    · cases he
      exact le_rfl

/-- The entry is sent as it should be. -/
def Entry.Read (root : List Byte) (e : Entry) : Prop := ∀ w, e.wire = some w → sentOf root e = [w]

theorem flatMap_sentOf_iff {root : List Byte} {s : List Entry}
    (hs : ∀ e ∈ s, e.wire.isNone = false) :
    s.flatMap (sentOf root) = s.filterMap Entry.wire ↔ ∀ e ∈ s, e.Read root := by
  have hsome : ∀ e ∈ s, e.wire = some (e.wire.getD ⟨[], []⟩) := by
    intro e he
    obtain ⟨w, hw⟩ := Option.isSome_iff_exists.1 (by simpa using hs e he : e.wire.isSome)
    rw [hw]
    rfl
  have hmap : s.filterMap Entry.wire = s.map fun e => e.wire.getD ⟨[], []⟩ := by
    rw [List.filterMap_congr hsome]
    exact congrFun List.filterMap_eq_map s
  rw [hmap, List.flatMap_eq_map_iff fun e _ => length_sentOf root e]
  refine forall₂_congr fun e he => ?_
  constructor
  · intro h w hw
    rw [h, hw]
    rfl
  · exact fun h => h _ (hsome e he)

/-- Dividers are not sent as attributes. -/
theorem flatMap_sentOf_filter {root : List Byte} {l : List Entry} (hwf : ∀ e ∈ l, e.Wf) :
    (l.filter fun e => e.wire.isNone = false).flatMap (sentOf root) = l.flatMap (sentOf root) := by
  induction l with
  | nil => rfl
  | cons e l ih =>
    have hl := ih fun e' he' => hwf e' (List.mem_cons_of_mem e he')
    by_cases hd : e.wire = none
    · have hs : sentOf root e = [] := sentOf_divider (hwf e (List.mem_cons_self ..)) hd
      rw [List.filter_cons_of_neg (by simp [hd]), List.flatMap_cons, hs, hl]
      rfl
    · rw [List.filter_cons_of_pos (by simpa [Option.isSome_iff_ne_none] using hd),
        List.flatMap_cons, List.flatMap_cons, hl]

theorem objectGroups_eq_iff {root : List Byte} {tag : Byte} {l : List Entry} :
    objectGroups root tag l =
        ((l.segments fun e => e.wire.isNone).map fun s => ⟨tag, s.filterMap Entry.wire⟩) ↔
      ∀ e ∈ l, e.Read root := by
  rw [objectGroups, List.map_inj_left]
  constructor
  · intro h e he w hw
    obtain ⟨s, hs, hes⟩ := List.mem_segments (d := fun e : Entry => e.wire.isNone) he (by simp [hw])
    have hseg := congrArg WireGroup.attrs (h s hs)
    exact (flatMap_sentOf_iff fun e he => (List.mem_of_mem_segments hs he).2).1 hseg e hes w hw
  · intro h s hs
    rw [(flatMap_sentOf_iff fun e he => (List.mem_of_mem_segments hs he).2).2 fun e he =>
      h e (List.mem_of_mem_segments hs he).1]

theorem single_eq_iff {root : List Byte} {tag : Byte} {l : List Entry} (hwf : ∀ e ∈ l, e.Wf) :
    ([⟨tag, l.flatMap (sentOf root)⟩] : List WireGroup) =
        ((l.segments fun e => e.wire.isNone).map fun s => ⟨tag, s.filterMap Entry.wire⟩) ↔
      (∀ e ∈ l, e.Read root) ∧ ∀ e ∈ l.dropLast, e.wire.isNone = false := by
  have hfilter : ∀ {s : List Entry}, (l.segments fun e => e.wire.isNone) = [s] →
      (l.flatMap (sentOf root) = s.filterMap Entry.wire ↔ ∀ e ∈ l, e.Read root) := by
    intro s hs
    have hseg := List.segments_eq_filter hs
    rw [← flatMap_sentOf_filter hwf, ← hseg, flatMap_sentOf_iff fun e he => by
      rw [hseg] at he
      simpa using (List.mem_filter.1 he).2]
    constructor
    · intro h e he w hw
      exact h e (by rw [hseg]; exact List.mem_filter.2 ⟨he, by simp [hw]⟩) w hw
    · intro h e he
      rw [hseg] at he
      exact h e (List.mem_filter.1 he).1
  constructor
  · intro h
    obtain ⟨s, hs⟩ : ∃ s, (l.segments fun e => e.wire.isNone) = [s] := by
      have hlen := congrArg List.length h
      rw [List.length_map] at hlen
      exact List.length_eq_one_iff.1 hlen.symm
    refine ⟨(hfilter hs).1 ?_, List.segments_eq_singleton_iff.1 ⟨s, hs⟩⟩
    rw [hs] at h
    exact congrArg WireGroup.attrs (List.cons.inj h).1
  · rintro ⟨hread, hdrop⟩
    obtain ⟨s, hs⟩ := List.segments_eq_singleton_iff.2 hdrop
    rw [hs, (hfilter hs).2 hread]
    rfl

/-- A group whose list has no use for dividers. -/
def ReplyGroup.isFlat : ReplyGroup → Bool
  | .operation | .unsupported => true
  | .printer | .job => false

theorem sentGroups_eq_iff {root : List Byte} {g : ReplyGroup} {l : List Entry}
    (hwf : ∀ e ∈ l, e.Wf) :
    sentGroups root g l = expectedGroups g.tag l ↔
      (∀ e ∈ l, e.Read root) ∧ (g.isFlat → ∀ e ∈ l.dropLast, e.wire.isNone = false) := by
  unfold sentGroups expectedGroups
  by_cases hl : l = []
  · subst hl
    simp
  · rw [if_neg hl, if_neg hl]
    cases g with
    | operation | unsupported =>
      dsimp only
      rw [single_eq_iff hwf]
      exact and_congr_right fun _ => ⟨fun h _ => h, fun h => h rfl⟩
    | printer | job =>
      dsimp only
      rw [objectGroups_eq_iff, and_iff_left fun h => by cases h]

/-! ## All groups -/

theorem mem_replyGroups (g : ReplyGroup) : g ∈ replyGroups := by
  cases g <;> decide

/-- Groups are told apart by their tags. -/
theorem flatMap_replyGroups_inj {F G : ReplyGroup → List WireGroup}
    (hF : ∀ g, ∀ w ∈ F g, w.tag = g.tag) (hG : ∀ g, ∀ w ∈ G g, w.tag = g.tag) :
    replyGroups.flatMap F = replyGroups.flatMap G ↔ ∀ g, F g = G g := by
  have pick : ∀ {H : ReplyGroup → List WireGroup}, (∀ g, ∀ w ∈ H g, w.tag = g.tag) →
      ∀ g, (replyGroups.flatMap H).filter (fun w => w.tag = g.tag) = H g := by
    intro H hH g
    have self : (H g).filter (fun w => w.tag = g.tag) = H g :=
      List.filter_eq_self.2 fun w hw => by simpa using hH g w hw
    have other : ∀ g', g'.tag ≠ g.tag → (H g').filter (fun w => w.tag = g.tag) = [] := by
      intro g' hne
      refine List.filter_eq_nil_iff.2 fun w hw => ?_
      rw [hH g' w hw]
      simpa using hne
    simp only [replyGroups, List.flatMap_cons, List.flatMap_nil, List.filter_append, List.append_nil]
    cases g with
    | operation =>
      rw [self, other .printer (by decide), other .job (by decide), other .unsupported (by decide)]
      simp
    | printer =>
      rw [self, other .operation (by decide), other .job (by decide),
        other .unsupported (by decide)]
      simp
    | job =>
      rw [self, other .operation (by decide), other .printer (by decide),
        other .unsupported (by decide)]
      simp
    | unsupported =>
      rw [self, other .operation (by decide), other .printer (by decide), other .job (by decide)]
      simp
  constructor
  · intro h g
    rw [← pick hF g, ← pick hG g, h]
  · intro h
    rw [funext h]

theorem tag_sentGroups {root : List Byte} {g : ReplyGroup} {l : List Entry} {w : WireGroup}
    (hw : w ∈ sentGroups root g l) : w.tag = g.tag := by
  unfold sentGroups at hw
  split_ifs at hw with hl
  · cases hw
  · cases g with
    | operation | unsupported => rw [List.mem_singleton.1 hw]
    | printer | job =>
      obtain ⟨s, -, rfl⟩ := List.mem_map.1 hw
      rfl

theorem tag_expectedGroups {tag : Byte} {l : List Entry} {w : WireGroup}
    (hw : w ∈ expectedGroups tag l) : w.tag = tag := by
  unfold expectedGroups at hw
  split_ifs at hw with hl
  · cases hw
  · obtain ⟨s, -, rfl⟩ := List.mem_map.1 hw
    rfl

/-- The attributes of a group are those of its entries. -/
theorem encodable_sentGroups {root : List Byte} {g : ReplyGroup} {l : List Entry}
    (h : ∀ e ∈ l, Encodable (sentOf root e)) {w : WireGroup} (hw : w ∈ sentGroups root g l) :
    Encodable w.attrs := by
  unfold sentGroups at hw
  split_ifs at hw with hl
  · cases hw
  · cases g with
    | operation | unsupported =>
      rw [List.mem_singleton.1 hw]
      exact encodable_flatMap h
    | printer | job =>
      obtain ⟨s, hs, rfl⟩ := List.mem_map.1 hw
      exact encodable_flatMap fun e he => h e (List.mem_of_mem_segments hs he).1

section Whole

variable (root : List Byte) {adds : List Add} (request : List IppAttribute)

/-- The groups that are sent. -/
def sentReply (root : List Byte) (adds : List Add) (request : List IppAttribute) :
    List WireGroup :=
  replyGroups.flatMap fun g => sentGroups root g (entries root adds request g)

theorem wf_entries (h : ∀ a ∈ adds, a.Permitted) (g : ReplyGroup) :
    ∀ e ∈ entries root adds request g, e.Wf := by
  intro e he
  rcases List.mem_append.1 he with he | he
  · obtain ⟨a, ha, rfl⟩ := List.mem_map.1 he
    exact Add.wf_entry root (h a (List.mem_filter.1 ha).1)
  · split_ifs at he
    · obtain ⟨p, -, rfl⟩ := List.mem_map.1 he
      exact ⟨iff_of_false (by simp [unclaimedEntry]) (by simp [unclaimedEntry]), fun _ => rfl⟩
    · cases he

theorem mem_entries {a : Add} (ha : a ∈ adds) :
    a.entry root ∈ entries root adds request a.group :=
  List.mem_append_left _ (List.mem_map_of_mem (List.mem_filter.2 ⟨ha, by simp⟩))

/-- What a call stands for is in the response that is asked for. -/
theorem mem_expected {a : Add} (ha : a ∈ adds) (hd : a.isDivider = false) :
    ∃ w ∈ expected root adds request, a.wire root ∈ w.attrs := by
  have hwire : (a.entry root).wire = some (a.wire root) := by
    rw [Add.entry, hd]
    rfl
  have hmem := mem_entries root request ha
  obtain ⟨s, hs, has⟩ := List.mem_segments (d := fun e : Entry => e.wire.isNone) hmem
    (by simp [hwire])
  refine ⟨⟨a.group.tag, s.filterMap Entry.wire⟩, ?_, List.mem_filterMap.2 ⟨_, has, hwire⟩⟩
  refine List.mem_flatMap.2 ⟨a.group, mem_replyGroups _, ?_⟩
  rw [expectedGroups, if_neg (List.ne_nil_of_mem hmem)]
  exact List.mem_map_of_mem hs

theorem list_returnUnclaimed {r : IppReply} (hr : addAll .empty adds = .ok r) (g : ReplyGroup) :
    (returnUnclaimed request r).list g = (entries root adds request g).map Entry.attr := by
  have hlist := (addAll_eq_ok hr).2
  have hstored : ∀ g, ((adds.filter fun a => a.group = g).map (Add.entry root)).map Entry.attr =
      r.list g := by
    intro g
    rw [hlist, List.map_map]
    cases g <;> rfl
  unfold entries
  rw [List.map_append, hstored]
  cases g with
  | operation | printer | job => exact (List.append_nil _).symm
  | unsupported =>
    rw [if_pos rfl, List.map_map]
    rfl

/-- What is sent, if all of it can be. -/
theorem ippSendReply_ok (h : ReplyHeader) {r : IppReply} (hr : addAll .empty adds = .ok r)
    (hop : r.operation ≠ [])
    (hs : ∀ g, ∀ e ∈ entries root adds request g, Sendable root e) (header : Bool) :
    ippSendReply root h request r header =
      .ok ((if header then httpHeader else []) ++
        (h.bytes ++ ((sentReply root adds request).flatMap groupBytes ++ [0x03]))) := by
  have hput : ∀ g, putList root g ((returnUnclaimed request r).list g) =
      .ok ((sentGroups root g (entries root adds request g)).flatMap groupBytes) := by
    intro g
    rw [list_returnUnclaimed root request hr]
    exact putList_ok (wf_entries root request (addAll_eq_ok hr).1 g) (hs g)
  rw [ippSendReply_eq]
  dsimp only
  rw [if_neg (show (returnUnclaimed request r).operation ≠ [] from hop), hput, hput, hput, hput]
  refine congrArg Except.ok ?_
  simp [sentReply, replyGroups]

/-- If something is sent, everything can be. -/
theorem sendable_of_ippSendReply {h : ReplyHeader} {r : IppReply}
    (hr : addAll .empty adds = .ok r) {header : Bool} {b : List Byte}
    (hb : ippSendReply root h request r header = .ok b) :
    r.operation ≠ [] ∧ ∀ g, ∀ e ∈ entries root adds request g, Sendable root e := by
  rw [ippSendReply_eq] at hb
  dsimp only at hb
  by_cases hop : (returnUnclaimed request r).operation = []
  · rw [if_pos hop] at hb
    cases hb
  rw [if_neg hop] at hb
  refine ⟨hop, fun g => ?_⟩
  have hwf := wf_entries root request (addAll_eq_ok hr).1 g
  have hlist := list_returnUnclaimed root request hr
  obtain ⟨b1, h1, hb⟩ := bind_eq_ok hb
  obtain ⟨b2, h2, hb⟩ := bind_eq_ok hb
  obtain ⟨b3, h3, hb⟩ := bind_eq_ok hb
  obtain ⟨b4, h4, -⟩ := bind_eq_ok hb
  rw [hlist] at h1 h2 h3 h4
  cases g with
  | operation => exact sendable_of_putList hwf h1
  | printer => exact sendable_of_putList hwf h2
  | job => exact sendable_of_putList hwf h3
  | unsupported => exact sendable_of_putList hwf h4

/-! ## When nothing is lost -/

/-- The client can read the response that was asked for. -/
def ReplyRead (h : ReplyHeader) (adds : List Add) (r : IppReply) (header : Bool) : Prop :=
  ∃ b, ippSendReply root h request r header = .ok ((if header then httpHeader else []) ++ b) ∧
    decode b = some (h.bytes, expected root adds request)

/-- Nothing of the response is lost: it has an operation attribute, no operation or job attribute of
the request was left unclaimed, operation attributes and unsupported attributes are not divided, and
every attribute fits. -/
structure ReplyFits (adds : List Add) : Prop where
  operation : ∃ a ∈ adds, a.group = .operation
  claimed : unclaimed request = []
  dividers : ∀ g : ReplyGroup, g.isFlat →
    ∀ a ∈ (adds.filter fun a => a.group = g).dropLast, a.isDivider = false
  fits : ∀ a ∈ adds, a.Fits root

variable {root request}

/-- Everything that is sent can be encoded, if everything that was asked for can be. -/
theorem ok_sentReply (hp : ∀ a ∈ adds, a.Permitted)
    (hshort : ∀ a ∈ adds, ∀ v ∈ (a.wire root).values, v.data.length < 65536) :
    ∀ w ∈ sentReply root adds request, w.Ok := by
  intro w hw
  obtain ⟨g, -, hw⟩ := List.mem_flatMap.1 hw
  have henc : Encodable w.attrs := by
    refine encodable_sentGroups (fun e he => ?_) hw
    rcases List.mem_append.1 he with he | he
    · obtain ⟨a, ha, rfl⟩ := List.mem_map.1 he
      have ha := (List.mem_filter.1 ha).1
      exact Add.encodable (hp a ha) (hshort a ha)
    · split_ifs at he
      · obtain ⟨p, -, rfl⟩ := List.mem_map.1 he
        exact encodable_nil
      · cases he
  have htag : w.tag.toNat < 0x10 ∧ w.tag ≠ 0x03 := by
    rw [tag_sentGroups hw]
    cases g <;> decide
  exact ⟨htag, henc.attrs, henc.names, henc.values⟩

theorem decode_sentReply (h : ReplyHeader) (hok : ∀ w ∈ sentReply root adds request, w.Ok) :
    decode (h.bytes ++ ((sentReply root adds request).flatMap groupBytes ++ [0x03])) =
      some (h.bytes, sentReply root adds request) := by
  rw [← flatMap_groupBytes]
  exact decode_groups rfl hok

theorem sentReply_eq_iff (hp : ∀ a ∈ adds, a.Permitted) :
    sentReply root adds request = expected root adds request ↔
      ∀ g, (∀ e ∈ entries root adds request g, e.Read root) ∧
        (g.isFlat → ∀ e ∈ (entries root adds request g).dropLast, e.wire.isNone = false) := by
  rw [sentReply, expected, flatMap_replyGroups_inj (fun g w hw => tag_sentGroups hw)
    fun g w hw => tag_expectedGroups hw]
  exact forall_congr' fun g => sentGroups_eq_iff (wf_entries root request hp g)

theorem Add.wire_entry {a : Add} (hd : a.isDivider = false) :
    (a.entry root).wire = some (a.wire root) := by
  rw [Add.entry, hd]
  rfl

theorem Add.isNone_entry (a : Add) : (a.entry root).wire.isNone = a.isDivider := by
  unfold Add.entry
  cases a.isDivider <;> rfl

/-- An unclaimed attribute is never sent. -/
theorem not_read_unclaimedEntry (p : IppAttribute) : ¬ (unclaimedEntry p).Read root := by
  intro h
  cases h _ rfl

theorem entries_of_claimed (hc : unclaimed request = []) (g : ReplyGroup) :
    entries root adds request g = (adds.filter fun a => a.group = g).map (Add.entry root) := by
  unfold entries
  rw [hc]
  split_ifs <;> exact List.append_nil _

/-- The entries are read back exactly if nothing is unclaimed and every call is. -/
theorem read_entries_iff :
    (∀ g, ∀ e ∈ entries root adds request g, e.Read root) ↔
      unclaimed request = [] ∧ ∀ a ∈ adds, (a.entry root).Read root := by
  constructor
  · intro h
    refine ⟨?_, fun a ha => h a.group _ (mem_entries root request ha)⟩
    refine List.eq_nil_iff_forall_not_mem.2 fun p hp => ?_
    refine not_read_unclaimedEntry p (h .unsupported _ (List.mem_append_right _ ?_))
    rw [if_pos rfl]
    exact List.mem_map_of_mem hp
  · rintro ⟨hc, h⟩ g e he
    rw [entries_of_claimed hc] at he
    obtain ⟨a, ha, rfl⟩ := List.mem_map.1 he
    exact h a (List.mem_filter.1 ha).1

theorem dividers_entries (hc : unclaimed request = []) (g : ReplyGroup) :
    (∀ e ∈ (entries root adds request g).dropLast, e.wire.isNone = false) ↔
      ∀ a ∈ (adds.filter fun a => a.group = g).dropLast, a.isDivider = false := by
  rw [entries_of_claimed hc, ← List.map_dropLast, List.forall_mem_map]
  exact forall₂_congr fun a _ => by rw [Add.isNone_entry]

theorem operation_ne_nil_iff {r : IppReply} (hr : addAll .empty adds = .ok r) :
    r.operation ≠ [] ↔ ∃ a ∈ adds, a.group = .operation := by
  have hlist : r.operation = (adds.filter fun a => a.group = .operation).map Add.stored :=
    (addAll_eq_ok hr).2 .operation
  rw [hlist, ne_eq, List.map_eq_nil_iff, List.filter_eq_nil_iff]
  push Not
  simp

theorem Add.Sends.read {a : Add} (h : a.Sends root) : (a.entry root).Read root := by
  intro w hw
  have hs : sentOf root (a.entry root) = [a.wire root] := by
    unfold sentOf
    rw [show sent root (a.entry root).attr = .ok [a.wire root] from h.1]
  unfold Add.entry at hw
  split_ifs at hw
  rw [hs, Option.some.inj hw]

theorem replyFits_of_replyRead {h : ReplyHeader} {r : IppReply} (hr : addAll .empty adds = .ok r)
    {header : Bool} (hread : ReplyRead root request h adds r header) :
    ReplyFits root request adds := by
  obtain ⟨b, hb, hdec⟩ := hread
  obtain ⟨hop, hs⟩ := sendable_of_ippSendReply root request hr hb
  have hp := (addAll_eq_ok hr).1
  -- No value that was asked for is too long, since the client has read it.
  have hshort : ∀ a ∈ adds, ∀ v ∈ (a.wire root).values, v.data.length < 65536 := by
    intro a ha v hv
    by_cases hd : a.isDivider
    · cases a with
      | divider => cases hv
      | _ => cases hd
    · obtain ⟨w, hw, haw⟩ := mem_expected root request ha (by simpa using hd)
      exact decode_short hdec hw haw hv
  obtain rfl : h.bytes ++ ((sentReply root adds request).flatMap groupBytes ++ [0x03]) = b := by
    rw [ippSendReply_ok root request h hr hop hs] at hb
    exact List.append_cancel_left (Except.ok.inj hb)
  rw [decode_sentReply h (ok_sentReply hp hshort)] at hdec
  have hgroups := (sentReply_eq_iff hp).1 (congrArg Prod.snd (Option.some.inj hdec))
  obtain ⟨hclaimed, hread⟩ := read_entries_iff.1 fun g => (hgroups g).1
  refine ⟨(operation_ne_nil_iff hr).1 hop, hclaimed, fun g hg => ?_, fun a ha => ?_⟩
  · exact (dividers_entries hclaimed g).1 ((hgroups g).2 hg)
  · by_cases hd : a.isDivider
    · cases a with
      | divider => trivial
      | _ => cases hd
    · have hd : a.isDivider = false := by simpa using hd
      have hsent : sent root a.stored = .ok (sentOf root (a.entry root)) :=
        hs a.group _ (mem_entries root request ha)
      rw [hread a ha _ (Add.wire_entry hd)] at hsent
      exact (Add.fits_iff (hp a ha) hd).2 ⟨hsent, hshort a ha⟩

theorem replyRead_of_replyFits (h : ReplyHeader) {r : IppReply} (hr : addAll .empty adds = .ok r)
    (header : Bool) (hfits : ReplyFits root request adds) :
    ReplyRead root request h adds r header := by
  have hp := (addAll_eq_ok hr).1
  have hsends : ∀ a ∈ adds, a.isDivider = false → a.Sends root :=
    fun a ha hd => (Add.fits_iff (hp a ha) hd).1 (hfits.fits a ha)
  have hshort : ∀ a ∈ adds, ∀ v ∈ (a.wire root).values, v.data.length < 65536 := by
    intro a ha
    by_cases hd : a.isDivider
    · cases a with
      | divider => exact fun v hv => absurd hv List.not_mem_nil
      | _ => cases hd
    · exact (hsends a ha (by simpa using hd)).2
  have hread : ∀ a ∈ adds, (a.entry root).Read root := by
    intro a ha w hw
    have hd : a.isDivider = false := by
      rw [← a.isNone_entry, hw]
      rfl
    exact (hsends a ha hd).read w hw
  have hs : ∀ g, ∀ e ∈ entries root adds request g, Sendable root e := by
    intro g e he
    have hwf := wf_entries root request hp g e he
    rw [entries_of_claimed hfits.claimed] at he
    obtain ⟨a, ha, rfl⟩ := List.mem_map.1 he
    by_cases hd : a.isDivider
    · exact sendable_of_ok (sent_divider hwf (by rw [Add.entry, hd]; rfl))
    · exact sendable_of_ok (hsends a (List.mem_filter.1 ha).1 (by simpa using hd)).1
  refine ⟨_, ippSendReply_ok root request h hr ((operation_ne_nil_iff hr).2 hfits.operation) hs
    header, ?_⟩
  rw [decode_sentReply h (ok_sentReply hp hshort), (sentReply_eq_iff hp).2]
  exact fun g => ⟨read_entries_iff.2 ⟨hfits.claimed, hread⟩ g,
    fun hg => (dividers_entries hfits.claimed g).2 (hfits.dividers g hg)⟩

/-- For every set of attributes, the client reads exactly these, grouped and in their order, if and
only if the response fits. -/
theorem replyRead_iff_replyFits (root : List Byte) (h : ReplyHeader) (request : List IppAttribute)
    (header : Bool) {adds : List Add} {r : IppReply} (hr : addAll .empty adds = .ok r) :
    ReplyRead root request h adds r header ↔ ReplyFits root request adds :=
  ⟨replyFits_of_replyRead hr, replyRead_of_replyFits h hr header⟩

end Whole

/-- `attributes-charset`. -/
def charsetName : IppName := ⟨⟨ascii "attributes-charset", by decide +kernel, by decide +kernel⟩,
  by decide +kernel⟩

/-- The first attribute of every response. -/
def charsetAdd : Add :=
  .strings .operation 0x47 charsetName [⟨ascii "utf-8", by decide +kernel, by decide +kernel⟩]

/-- A response with nothing but its character set can be read. -/
theorem replyRead_charset :
    ReplyRead (ascii "http://localhost:631") [] ⟨1, 1, 0, 1⟩ [charsetAdd]
      { IppReply.empty with operation := [charsetAdd.stored] } true := by
  refine (replyRead_iff_replyFits _ _ _ _ rfl).2 ⟨?_, rfl, ?_, ?_⟩
  · exact ⟨charsetAdd, List.mem_singleton_self _, rfl⟩
  · rintro g - a ha
    cases g <;> cases ha
  · intro a ha
    rw [List.mem_singleton.1 ha]
    refine ⟨List.cons_ne_nil _ _, fun t ht => ?_⟩
    rw [List.mem_singleton.1 ht]
    decide +kernel

/-- `job-impressions` with the value out of band 0x12, unknown. -/
def unknownAdd : Add :=
  .outOfBand .job 0x12 (by decide)
    ⟨⟨ascii "job-impressions", by decide +kernel, by decide +kernel⟩, by decide +kernel⟩

/-- A value out of band does not reach the client. -/
theorem outOfBand_lost :
    addAll .empty [charsetAdd, unknownAdd] = .ok { IppReply.empty with
      operation := [charsetAdd.stored], job := [unknownAdd.stored] } ∧
    ¬ ReplyRead (ascii "http://localhost:631") [] ⟨1, 1, 0, 1⟩ [charsetAdd, unknownAdd]
      { IppReply.empty with operation := [charsetAdd.stored], job := [unknownAdd.stored] } true := by
  refine ⟨rfl, fun h => ?_⟩
  exact (replyFits_of_replyRead rfl h).fits unknownAdd (by simp)

end Ppr
