import Ppr.Lib.Postscript

/-!
# Positioning on a page

`top_of_page()` and `achieve_position()` of `filter_dotmatrix/postscript.c`, and the procedures of
`TrinColl-PPR-Dotmatrix` that carry out the commands.
-/

namespace Ppr.Dotmatrix

open Postscript

/-! ## The procset -/

/-- The names in the dictionary `pprdotmatrix` that have to do with positions. -/
inductive Name where
  | init | xfactor | yfactor | lasty | lm | ls | mxy | mx | my | m | n
  deriving DecidableEq

/-- `pprdotmatrix`, before `pprdotmatrix_init` has been executed. -/
def pprdotmatrix : Name → Option (Value Name)
  | .init => some (.proc
      [.lit .xfactor, .num 240, .num 72, .op .div, .op .define, .lit .yfactor, .num 3, .op .define,
        .lit .lasty, .num 0, .op .define, .lit .lm, .num 0, .op .define, .lit .ls, .num 0, .op .define])
  | .mxy => some (.proc
      [.name .yfactor, .op .div, .op .exch, .name .xfactor, .op .div,
        .op .dup, .lit .lm, .op .exch, .op .define,
        .op .exch, .op .dup, .name .lasty, .op .sub, .lit .ls, .op .exch, .op .define,
        .op .dup, .lit .lasty, .op .exch, .op .define, .op .moveto])
  | .mx => some (.proc
      [.name .xfactor, .op .div, .op .currentpoint, .op .exch, .op .pop, .op .moveto])
  | .my => some (.proc
      [.name .yfactor, .op .div, .op .dup, .lit .lasty, .op .exch, .op .define,
        .op .currentpoint, .op .pop, .op .exch, .op .moveto])
  | .m => some (.proc
      [.name .xfactor, .op .div, .op .currentpoint, .num 3, .num (-2), .op .roll, .op .add, .op .exch,
        .op .moveto])
  | .n => some (.proc
      [.name .lm, .name .lasty, .name .ls, .op .add, .op .dup, .lit .lasty, .op .exch, .op .define,
        .op .moveto])
  | _ => none

/-- What `top_of_document()` has executed of this; `pins24` is `EMULATION_24PIN_UNITS`. -/
def setup (pins24 : Bool) : List (Token Name) :=
  .name .init ::
    if pins24 then
      [.lit .xfactor, .num 360, .num 72, .op .div, .op .define,
        .lit .yfactor, .num 360, .num 72, .op .div, .op .define]
    else []

/-- The interpreter at the top of a page: `bp` has saved the variables as the setup section has left
them, every `ep` brings them back, and there is no current point. -/
def AtTop (pins24 : Bool) (p : State Name) : Prop :=
  exec 2 (setup pins24) ⟨[], pprdotmatrix, none⟩ = .ok p

def xfactor (pins24 : Bool) : ℚ := if pins24 then 5 else 10 / 3

def yfactor (pins24 : Bool) : ℚ := if pins24 then 5 else 3

/-- `HORIZONTAL_UNITS` -/
def horizontalUnits (pins24 : Bool) : ℤ := if pins24 then 360 else 240

/-! ## The filter -/

/-- The variables of the filter that follow the interpreter. -/
structure Movement where
  postscriptXpos : ℤ
  postscriptYpos : ℤ
  /-- The position achieved by the last absolute horizontal command. -/
  lm : ℤ
  /-- The magnitude of the last vertical movement. -/
  ls : ℤ

/-- `top_of_page()` -/
def topOfPage : Movement := ⟨-1, -1, 0, 0⟩

/-- `achieve_position()`: what is written, and the variables afterwards. -/
def achievePosition (pins24 : Bool) (v : Movement) (xpos ypos : ℤ) : List (Token Name) × Movement :=
  let v' := { v with postscriptXpos := xpos, postscriptYpos := ypos }
  if xpos ≠ v.postscriptXpos ∧ ypos ≠ v.postscriptYpos then
    if xpos = v.lm ∧ ypos = v.postscriptYpos - v.ls then ([.name .n], v')
    else
      ([.num xpos, .num ypos, .name .mxy], { v' with lm := xpos, ls := v.postscriptYpos - ypos })
  else if ypos ≠ v.postscriptYpos then
    ([.num ypos, .name .my], { v' with ls := v.postscriptYpos - ypos })
  else if xpos ≠ v.postscriptXpos then
    let movement := xpos - v.postscriptXpos
    if 0 < movement ∧ movement < horizontalUnits pins24 then ([.num movement, .name .m], v')
    else ([.num xpos, .name .mx], v')
  else ([], v')

/-- The current point is the target after each call; `p` is the interpreter before the first. -/
def OnTarget (pins24 : Bool) (v : Movement) (p : State Name) : List (ℤ × ℤ) → Prop
  | [] => True
  | t :: ts =>
    ∃ p', exec 1 (achievePosition pins24 v t.1 t.2).1 p = .ok p' ∧
      p'.point = some (t.1 / xfactor pins24, t.2 / yfactor pins24) ∧
      OnTarget pins24 (achievePosition pins24 v t.1 t.2).2 p' ts

/-! ## The commands -/

section

variable {pins24 : Bool} {p : State Name}

/-- The interpreter has the procset, with the scale factors of the emulation. -/
structure Loaded (pins24 : Bool) (p : State Name) : Prop where
  xfactor : p.dict .xfactor = some (.num (xfactor pins24))
  yfactor : p.dict .yfactor = some (.num (yfactor pins24))
  mxy : p.dict .mxy = pprdotmatrix .mxy
  mx : p.dict .mx = pprdotmatrix .mx
  my : p.dict .my = pprdotmatrix .my
  m : p.dict .m = pprdotmatrix .m
  n : p.dict .n = pprdotmatrix .n

theorem xfactor_ne_zero (pins24 : Bool) : xfactor pins24 ≠ 0 := by
  cases pins24 <;> norm_num [xfactor]

theorem yfactor_ne_zero (pins24 : Bool) : yfactor pins24 ≠ 0 := by
  cases pins24 <;> norm_num [yfactor]

theorem exec_mxy (h : Loaded pins24 p) {q : ℚ} (hy : p.dict .lasty = some (.num q)) (x y : ℚ) :
    exec 1 [.num x, .num y, .name .mxy] p = .ok { p with
      dict := Function.update (Function.update (Function.update p.dict
        .lm (some (.num (x / xfactor pins24)))) .ls (some (.num (y / yfactor pins24 - q))))
        .lasty (some (.num (y / yfactor pins24)))
      point := some (x / xfactor pins24, y / yfactor pins24) } := by
  simp [h.mxy, pprdotmatrix, h.xfactor, h.yfactor, xfactor_ne_zero, yfactor_ne_zero, hy]

theorem exec_mx (h : Loaded pins24 p) {X Y : ℚ} (hp : p.point = some (X, Y)) (x : ℚ) :
    exec 1 [.num x, .name .mx] p = .ok { p with point := some (x / xfactor pins24, Y) } := by
  simp [h.mx, pprdotmatrix, h.xfactor, xfactor_ne_zero, hp]

theorem exec_my (h : Loaded pins24 p) {X Y : ℚ} (hp : p.point = some (X, Y)) (y : ℚ) :
    exec 1 [.num y, .name .my] p = .ok { p with
      dict := Function.update p.dict .lasty (some (.num (y / yfactor pins24)))
      point := some (X, y / yfactor pins24) } := by
  simp [h.my, pprdotmatrix, h.yfactor, yfactor_ne_zero, hp]

/-- `3 -2 roll` -/
theorem rollItems_three {s : State Name} {a b c : Obj Name} {rest : List (Obj Name)}
    (hs : s.stack = .num (-2) :: .num 3 :: c :: b :: a :: rest) :
    rollItems s = .ok { s with stack := b :: a :: c :: rest } := by
  have hturn : ((-2 : ℤ) % (3 : ℕ)).toNat = 1 := rfl
  rw [rollItems_eq (-2) hs (by norm_num) (by norm_num : (3 : ℚ) = (3 : ℕ)) (by simp), hturn]
  rfl

theorem exec_m (h : Loaded pins24 p) {X Y : ℚ} (hp : p.point = some (X, Y)) (d : ℚ) :
    exec 1 [.num d, .name .m] p = .ok { p with point := some (d / xfactor pins24 + X, Y) } := by
  have hroll : rollItems ⟨.num (-2) :: .num 3 :: .num Y :: .num X :: .num (d / xfactor pins24) ::
      p.stack, p.dict, some (X, Y)⟩ = .ok ⟨.num X :: .num (d / xfactor pins24) :: .num Y :: p.stack,
        p.dict, some (X, Y)⟩ := rollItems_three rfl
  simp [h.m, pprdotmatrix, hroll, h.xfactor, xfactor_ne_zero, hp]

theorem exec_n (h : Loaded pins24 p) {x y d : ℚ} (hlm : p.dict .lm = some (.num x))
    (hy : p.dict .lasty = some (.num y)) (hls : p.dict .ls = some (.num d)) :
    exec 1 [.name .n] p = .ok { p with
      dict := Function.update p.dict .lasty (some (.num (y + d))), point := some (x, y + d) } := by
  simp [h.n, pprdotmatrix, hlm, hy, hls]

/-- Relative to nothing. -/
theorem exec_of_none (h : Loaded pins24 p) (hp : p.point = none) (q : ℚ) :
    exec 1 [.num q, .name .mx] p = .error .nocurrentpoint ∧
      exec 1 [.num q, .name .my] p = .error .nocurrentpoint ∧
      exec 1 [.num q, .name .m] p = .error .nocurrentpoint := by
  simp [h.mx, h.my, h.m, pprdotmatrix, h.xfactor, h.yfactor, xfactor_ne_zero, yfactor_ne_zero, hp]

/-- The setup section leaves the procset loaded and no current point. -/
theorem setup_loaded (pins24 : Bool) : ∃ p, AtTop pins24 p ∧ Loaded pins24 p ∧ p.point = none ∧
    p.dict .lasty = some (.num 0) := by
  have factor {q r : ℚ} (h : q = r) : some (Value.num (ν := Name) q) = some (.num r) := by rw [h]
  cases pins24
  · exact ⟨_, rfl, ⟨factor (by norm_num [xfactor]), rfl, rfl, rfl, rfl, rfl, rfl⟩, rfl, rfl⟩
  · exact ⟨_, rfl, ⟨factor (by norm_num [xfactor]), factor (by norm_num [yfactor]), rfl, rfl, rfl, rfl,
      rfl⟩, rfl, rfl⟩

end

/-! ## What the filter believes -/

/-- The interpreter is where the filter believes it to be, and its own line step is `rise`. -/
structure Believed (pins24 : Bool) (v : Movement) (rise : ℤ) (p : State Name) : Prop extends
    Loaded pins24 p where
  lm : p.dict .lm = some (.num (v.lm / Dotmatrix.xfactor pins24))
  lasty : p.dict .lasty = some (.num (v.postscriptYpos / Dotmatrix.yfactor pins24))
  ls : p.dict .ls = some (.num (rise / Dotmatrix.yfactor pins24))
  point : p.point = some (v.postscriptXpos / Dotmatrix.xfactor pins24,
    v.postscriptYpos / Dotmatrix.yfactor pins24)

/-- The call takes the short newline command. -/
def Newline (v : Movement) (xpos ypos : ℤ) : Prop :=
  (xpos ≠ v.postscriptXpos ∧ ypos ≠ v.postscriptYpos) ∧ xpos = v.lm ∧ ypos = v.postscriptYpos - v.ls

/-- The line step of the interpreter after a call: only `mxy` recomputes it. -/
def riseAfter (v : Movement) (rise xpos ypos : ℤ) : ℤ :=
  if xpos ≠ v.postscriptXpos ∧ ypos ≠ v.postscriptYpos then ypos - v.postscriptYpos else rise

/-- Every newline command comes where the line step of the interpreter, `rise` before the first call,
is the distance that is to be moved. -/
def StepsFit (pins24 : Bool) (v : Movement) (rise : ℤ) : List (ℤ × ℤ) → Prop
  | [] => True
  | t :: ts =>
    (Newline v t.1 t.2 → t.2 - v.postscriptYpos = rise) ∧
      StepsFit pins24 (achievePosition pins24 v t.1 t.2).2 (riseAfter v rise t.1 t.2) ts

section

variable {pins24 : Bool} {v : Movement} {rise : ℤ} {p : State Name}

theorem div_eq_div_iff_int {f : ℚ} (hf : f ≠ 0) (i j : ℤ) : (i : ℚ) / f = j / f ↔ i = j := by
  rw [div_left_inj' hf, Int.cast_inj]

/-- Where the variables of the procset are changed, the procset stays loaded. -/
theorem Loaded.update (h : Loaded pins24 p) {x : Name} (hx : x = .lm ∨ x = .ls ∨ x = .lasty)
    (val : Option (Value Name)) (q : Option (ℚ × ℚ)) :
    Loaded pins24 { p with dict := Function.update p.dict x val, point := q } := by
  rcases hx with rfl | rfl | rfl
  all_goals exact ⟨h.xfactor, h.yfactor, h.mxy, h.mx, h.my, h.m, h.n⟩

/-- What one call does, once the filter knows where the interpreter is. -/
theorem Believed.achievePosition (h : Believed pins24 v rise p) (x y : ℤ) :
    ∃ p', exec 1 (achievePosition pins24 v x y).1 p = .ok p' ∧
      (p'.point = some (x / Dotmatrix.xfactor pins24, y / Dotmatrix.yfactor pins24) ↔
        (Newline v x y → y - v.postscriptYpos = rise)) ∧
      ((Newline v x y → y - v.postscriptYpos = rise) →
        Believed pins24 (achievePosition pins24 v x y).2 (riseAfter v rise x y) p') := by
  have hyf := yfactor_ne_zero pins24
  by_cases hboth : x ≠ v.postscriptXpos ∧ y ≠ v.postscriptYpos
  · by_cases hn : x = v.lm ∧ y = v.postscriptYpos - v.ls
    · -- `n`
      have hnl : Newline v x y := ⟨hboth, hn⟩
      have hstep : ((v.postscriptYpos : ℚ) / Dotmatrix.yfactor pins24 + rise / Dotmatrix.yfactor pins24) =
          (v.postscriptYpos + rise : ℤ) / Dotmatrix.yfactor pins24 := by
        push_cast
        rw [add_div]
      have hfit : y - v.postscriptYpos = rise ↔ v.postscriptYpos + rise = y := by omega
      simp only [Dotmatrix.achievePosition, riseAfter, if_pos hboth, if_pos hn, hnl, true_imp_iff, hfit]
      refine ⟨_, exec_n h.toLoaded h.lm h.lasty h.ls, ?_, fun hr => ?_⟩
      · rw [hstep, Option.some_inj, Prod.mk.injEq, div_eq_div_iff_int hyf, hn.1]
        exact and_iff_right rfl
      · rw [hstep, hr]
        have hrise : y - v.postscriptYpos = rise := by omega
        refine ⟨h.toLoaded.update (.inr (.inr rfl)) _ _, h.lm, rfl, ?_, ?_⟩
        · rw [hrise]
          exact h.ls
        · rw [hn.1]
    · -- `mxy`
      have hnl : ¬Newline v x y := fun hc => hn hc.2
      have hstep : ((y : ℚ) / Dotmatrix.yfactor pins24 - v.postscriptYpos / Dotmatrix.yfactor pins24) =
          (y - v.postscriptYpos : ℤ) / Dotmatrix.yfactor pins24 := by
        push_cast
        rw [sub_div]
      simp only [Dotmatrix.achievePosition, riseAfter, if_pos hboth, if_neg hn, hnl, false_imp_iff]
      refine ⟨_, exec_mxy h.toLoaded h.lasty x y, iff_of_true rfl trivial, fun _ => ?_⟩
      rw [hstep]
      refine ⟨?_, rfl, rfl, rfl, rfl⟩
      have h1 := h.toLoaded.update (.inl rfl) (some (.num (x / Dotmatrix.xfactor pins24))) none
      have h2 := h1.update (.inr (.inl rfl))
        (some (.num ((y - v.postscriptYpos : ℤ) / Dotmatrix.yfactor pins24))) none
      exact h2.update (.inr (.inr rfl)) _ _
  · have hnl : ¬Newline v x y := fun hc => hboth hc.1
    simp only [Dotmatrix.achievePosition, riseAfter, if_neg hboth, hnl, false_imp_iff, iff_true,
      true_imp_iff]
    by_cases hy : y = v.postscriptYpos
    · by_cases hx : x = v.postscriptXpos
      · -- nothing
        simp only [hy, hx, ne_eq, not_true_eq_false, if_false]
        exact ⟨p, rfl, h.point, h⟩
      · simp only [hy, hx, ne_eq, not_true_eq_false, if_false, not_false_eq_true, if_true]
        have hpoint : some (((x - v.postscriptXpos : ℤ) / Dotmatrix.xfactor pins24 +
            v.postscriptXpos / Dotmatrix.xfactor pins24 : ℚ), v.postscriptYpos / Dotmatrix.yfactor pins24) =
            some (x / Dotmatrix.xfactor pins24, v.postscriptYpos / Dotmatrix.yfactor pins24) := by
          push_cast
          rw [← add_div, sub_add_cancel]
        have hkept : Believed pins24 { v with postscriptXpos := x } rise
            { p with point := some (x / Dotmatrix.xfactor pins24, v.postscriptYpos / Dotmatrix.yfactor pins24) } :=
          ⟨⟨h.xfactor, h.yfactor, h.mxy, h.mx, h.my, h.m, h.n⟩, h.lm, h.lasty, h.ls, rfl⟩
        split_ifs
        · -- `m`
          refine ⟨_, exec_m h.toLoaded h.point _, hpoint, ?_⟩
          rw [hpoint]
          exact hkept
        · -- `mx`
          exact ⟨_, exec_mx h.toLoaded h.point x, rfl, hkept⟩
    · -- `my`
      have hx : x = v.postscriptXpos := by
        by_contra hne
        exact hboth ⟨hne, hy⟩
      simp only [hy, ne_eq, not_false_eq_true, if_true]
      subst hx
      exact ⟨_, exec_my h.toLoaded h.point y, rfl,
        ⟨h.toLoaded.update (.inr (.inr rfl)) _ _, h.lm, rfl, h.ls, rfl⟩⟩

/-- Over a run of calls. -/
theorem Believed.onTarget_iff (h : Believed pins24 v rise p) (ts : List (ℤ × ℤ)) :
    OnTarget pins24 v p ts ↔ StepsFit pins24 v rise ts := by
  induction ts generalizing v rise p with
  | nil => exact Iff.rfl
  | cons t ts ih =>
    obtain ⟨p', hexec, hpoint, hnext⟩ := h.achievePosition t.1 t.2
    rw [OnTarget, StepsFit]
    constructor
    · rintro ⟨p'', hexec', hpoint', hrest⟩
      obtain rfl := Except.ok.inj (hexec.symm.trans hexec')
      have hfit := hpoint.1 hpoint'
      exact ⟨hfit, (ih (hnext hfit)).1 hrest⟩
    · rintro ⟨hfit, hrest⟩
      exact ⟨p', hexec, hpoint.2 hfit, (ih (hnext hfit)).2 hrest⟩

end

/-! ## A whole page -/

/-- Every call on the page puts the current point at its target. -/
def PageOnTarget (pins24 : Bool) (targets : List (ℤ × ℤ)) : Prop :=
  ∃ p, AtTop pins24 p ∧ OnTarget pins24 topOfPage p targets

/-- The first target has no coordinate that stands for a lost position, and behind it every newline
command comes where the line step of the interpreter is the distance that is to be moved; the first
`mxy` counts its line step from the top of the page. -/
def PageSteady (pins24 : Bool) : List (ℤ × ℤ) → Prop
  | [] => True
  | t :: ts => t.1 ≠ -1 ∧ t.2 ≠ -1 ∧ StepsFit pins24 ⟨t.1, t.2, t.1, -1 - t.2⟩ t.2 ts

theorem achievePosition_topOfPage {pins24 : Bool} {x y : ℤ} (hx : x ≠ -1) (hy : y ≠ -1) :
    achievePosition pins24 topOfPage x y =
      ([.num x, .num y, .name .mxy], ⟨x, y, x, -1 - y⟩) := by
  have hn : ¬(x = 0 ∧ y = -1 - 0) := fun h => hy h.2
  simp only [achievePosition, topOfPage, ne_eq, hx, hy, not_false_eq_true, and_self, if_true, hn,
    if_false]

/-- Nothing is written for a position that is taken for the lost one, or a movement from there. -/
theorem achievePosition_lost {pins24 : Bool} {p : State Name} (h : Loaded pins24 p)
    (hp : p.point = none) {x y : ℤ} (hxy : x = -1 ∨ y = -1) {p' : State Name}
    (hexec : exec 1 (achievePosition pins24 topOfPage x y).1 p = .ok p') : p'.point = none := by
  have hnone := exec_of_none h hp
  have hboth : ¬(x ≠ topOfPage.postscriptXpos ∧ y ≠ topOfPage.postscriptYpos) := by
    rintro ⟨hx, hy⟩
    exact hxy.elim hx hy
  unfold achievePosition at hexec
  dsimp only at hexec
  rw [if_neg hboth] at hexec
  split_ifs at hexec
  · rw [(hnone _).2.1] at hexec
    cases hexec
  · rw [(hnone _).2.2] at hexec
    cases hexec
  · rw [(hnone _).1] at hexec
    cases hexec
  · cases hexec
    exact hp

theorem onTarget_topOfPage_iff {pins24 : Bool} {p : State Name} (hloaded : Loaded pins24 p)
    (hpoint : p.point = none) (hlasty : p.dict .lasty = some (.num 0)) (targets : List (ℤ × ℤ)) :
    OnTarget pins24 topOfPage p targets ↔ PageSteady pins24 targets := by
  cases targets with
  | nil => exact Iff.rfl
  | cons t ts =>
    rw [OnTarget, PageSteady]
    by_cases hlost : t.1 = -1 ∨ t.2 = -1
    · refine iff_of_false ?_ fun h => ?_
      · rintro ⟨p', hexec, hp', -⟩
        rw [achievePosition_lost hloaded hpoint hlost hexec] at hp'
        cases hp'
      · exact hlost.elim h.1 h.2.1
    · rw [not_or] at hlost
      rw [achievePosition_topOfPage hlost.1 hlost.2, and_iff_right hlost.1, and_iff_right hlost.2]
      have hexec := exec_mxy hloaded hlasty (t.1 : ℚ) t.2
      have hbelieved : Believed pins24 ⟨t.1, t.2, t.1, -1 - t.2⟩ t.2 _ :=
        { toLoaded := ((hloaded.update (.inl rfl) _ none).update (.inr (.inl rfl)) _ none).update
            (.inr (.inr rfl)) _ _
          lm := rfl
          lasty := rfl
          ls := congrArg some (congrArg Value.num (sub_zero _))
          point := rfl }
      rw [← hbelieved.onTarget_iff]
      constructor
      · rintro ⟨p', hexec', -, hrest⟩
        obtain rfl := Except.ok.inj (hexec.symm.trans hexec')
        exact hrest
      · exact fun h => ⟨_, hexec, rfl, h⟩

/-- The page is right exactly if its line steps fit. -/
theorem pageOnTarget_iff (pins24 : Bool) (targets : List (ℤ × ℤ)) :
    PageOnTarget pins24 targets ↔ PageSteady pins24 targets := by
  obtain ⟨p, htop, hloaded, hpoint, hlasty⟩ := setup_loaded pins24
  rw [← onTarget_topOfPage_iff hloaded hpoint hlasty]
  constructor
  · rintro ⟨p', htop', h⟩
    obtain rfl := Except.ok.inj (htop.symm.trans htop')
    exact h
  · exact fun h => ⟨p, htop, h⟩

/-- A line feed of 36 in the column 50 and a new line of 36: the line feed is `my`, which leaves the line
step of the interpreter alone, and `n` moves down by that of the first `mxy`, which is nothing. -/
theorem not_pageOnTarget_newline : ¬PageOnTarget false [(0, 0), (50, 0), (50, -36), (0, -72)] := by
  obtain ⟨p, htop, hloaded, hpoint, hlasty⟩ := setup_loaded false
  rintro ⟨p', htop', h⟩
  obtain rfl := Except.ok.inj (htop.symm.trans htop')
  have hsteady := (onTarget_topOfPage_iff hloaded hpoint hlasty _).1 h
  simp [PageSteady, StepsFit, Newline, achievePosition, riseAfter, horizontalUnits] at hsteady

end Ppr.Dotmatrix
