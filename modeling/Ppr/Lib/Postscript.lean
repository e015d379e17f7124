import Mathlib

/-!
# A PostScript interpreter

Numbers, names, the operators on the operand stack, `def` and the current point, with exact rational
numbers.  A name that is executed stands for a number or for a procedure; the calls that may be open at
the same time are limited, as the execution stack of an interpreter is.

Straight-line code is run over a stack whose items are known by the simp lemmas about `execWith` and
`Op.apply`; `rollItems_eq` is the rule for `roll`.
-/

namespace Postscript

variable {ν : Type}

/-- The objects on the operand stack. -/
inductive Obj (ν : Type) where
  | num (q : ℚ)
  | lit (x : ν)

inductive Op where
  | add | sub | mul | div | dup | exch | pop | roll | define | moveto | currentpoint
  deriving DecidableEq

/-- The tokens of a program; names and operators are executed. -/
inductive Token (ν : Type) where
  | num (q : ℚ)
  | lit (x : ν)
  | name (x : ν)
  | op (o : Op)

/-- What a name stands for. -/
inductive Value (ν : Type) where
  | num (q : ℚ)
  | proc (body : List (Token ν))

inductive Err where
  | stackunderflow | typecheck | rangecheck | undefined | undefinedresult | nocurrentpoint
  | execstackoverflow
  deriving DecidableEq

/-- The stack has its top first. -/
structure State (ν : Type) where
  stack : List (Obj ν)
  dict : ν → Option (Value ν)
  point : Option (ℚ × ℚ)

/-- An operator on two numbers, the second of them on top. -/
def arith (f : ℚ → ℚ → Except Err ℚ) (s : State ν) : Except Err (State ν) :=
  match s.stack with
  | .num b :: .num a :: rest => (f a b).map fun q => { s with stack := .num q :: rest }
  | _ :: _ :: _ => .error .typecheck
  | _ => .error .stackunderflow

/-- `n j roll` turns the top `n` items by `j`, upwards if `j` is positive. -/
def rollItems (s : State ν) : Except Err (State ν) :=
  match s.stack with
  | .num j :: .num n :: rest =>
    if j.den ≠ 1 ∨ n.den ≠ 1 then .error .typecheck
    else if n < 0 then .error .rangecheck
    else
      let n := n.num.toNat
      if rest.length < n then .error .stackunderflow
      else .ok { s with stack := (rest.take n).rotate (j.num % n).toNat ++ rest.drop n }
  | _ :: _ :: _ => .error .typecheck
  | _ => .error .stackunderflow

theorem rollItems_eq {s : State ν} {rest : List (Obj ν)} (i : ℤ) {k : ℕ} {j n : ℚ}
    (h : s.stack = .num j :: .num n :: rest) (hj : j = i) (hn : n = k) (hk : k ≤ rest.length) :
    rollItems s = .ok { s with stack := (rest.take k).rotate (i % k).toNat ++ rest.drop k } := by
  subst hj hn
  have hneg : ¬(k : ℚ) < 0 := not_lt.2 k.cast_nonneg
  rw [rollItems, h]
  simp only [Rat.den_intCast, Rat.den_natCast, ne_eq, not_true_eq_false, or_self, if_false, hneg,
    Rat.num_natCast, Int.toNat_natCast, Nat.not_lt.2 hk, Rat.num_intCast]

@[simp] theorem bind_ok (s : State ν) (f : State ν → Except Err (State ν)) :
    (Except.ok s).bind f = f s := rfl

@[simp] theorem bind_error (e : Err) (f : State ν → Except Err (State ν)) :
    (Except.error e).bind f = .error e := rfl

section

variable [DecidableEq ν]

def Op.apply (s : State ν) : Op → Except Err (State ν)
  | .add => arith (fun a b => .ok (a + b)) s
  | .sub => arith (fun a b => .ok (a - b)) s
  | .mul => arith (fun a b => .ok (a * b)) s
  | .div => arith (fun a b => if b = 0 then .error .undefinedresult else .ok (a / b)) s
  | .dup =>
    match s.stack with
    | a :: rest => .ok { s with stack := a :: a :: rest }
    | [] => .error .stackunderflow
  | .exch =>
    match s.stack with
    | b :: a :: rest => .ok { s with stack := a :: b :: rest }
    | _ => .error .stackunderflow
  | .pop =>
    match s.stack with
    | _ :: rest => .ok { s with stack := rest }
    | [] => .error .stackunderflow
  | .roll => rollItems s
  | .define =>
    match s.stack with
    | .num q :: .lit x :: rest =>
      .ok { s with stack := rest, dict := Function.update s.dict x (some (.num q)) }
    | _ :: _ :: _ => .error .typecheck
    | _ => .error .stackunderflow
  | .moveto =>
    match s.stack with
    | .num y :: .num x :: rest => .ok { s with stack := rest, point := some (x, y) }
    | _ :: _ :: _ => .error .typecheck
    | _ => .error .stackunderflow
  | .currentpoint =>
    match s.point with
    | some (x, y) => .ok { s with stack := .num y :: .num x :: s.stack }
    | none => .error .nocurrentpoint

/-- Execute tokens one after the other; `call` executes the body of a procedure. -/
def execWith (call : List (Token ν) → State ν → Except Err (State ν)) :
    List (Token ν) → State ν → Except Err (State ν)
  | [], s => .ok s
  | .num q :: ts, s => execWith call ts { s with stack := .num q :: s.stack }
  | .lit x :: ts, s => execWith call ts { s with stack := .lit x :: s.stack }
  | .op o :: ts, s => (o.apply s).bind (execWith call ts)
  | .name x :: ts, s =>
    match s.dict x with
    | none => .error .undefined
    | some (.num q) => execWith call ts { s with stack := .num q :: s.stack }
    | some (.proc body) => (call body s).bind (execWith call ts)

/-- Execute tokens with at most `depth` calls open. -/
def exec : ℕ → List (Token ν) → State ν → Except Err (State ν)
  | 0 => execWith fun _ _ => .error .execstackoverflow
  | depth + 1 => execWith (exec depth)

/-! ## Straight-line code -/

section

variable (call : List (Token ν) → State ν → Except Err (State ν)) (ts : List (Token ν)) (s : State ν)

@[simp] theorem exec_zero :
    exec 0 ts s = execWith (fun _ _ => .error .execstackoverflow) ts s := rfl

@[simp] theorem exec_succ (depth : ℕ) : exec (depth + 1) ts s = execWith (exec depth) ts s := rfl

@[simp] theorem execWith_nil : execWith call [] s = .ok s := rfl

@[simp] theorem execWith_num (q : ℚ) :
    execWith call (.num q :: ts) s = execWith call ts { s with stack := .num q :: s.stack } := rfl

@[simp] theorem execWith_lit (x : ν) :
    execWith call (.lit x :: ts) s = execWith call ts { s with stack := .lit x :: s.stack } := rfl

@[simp] theorem execWith_op (o : Op) :
    execWith call (.op o :: ts) s = (o.apply s).bind (execWith call ts) := rfl

@[simp] theorem execWith_name (x : ν) :
    execWith call (.name x :: ts) s =
      match s.dict x with
      | none => .error .undefined
      | some (.num q) => execWith call ts { s with stack := .num q :: s.stack }
      | some (.proc body) => (call body s).bind (execWith call ts) := rfl

end

section

variable (rest : List (Obj ν)) (dict : ν → Option (Value ν)) (point : Option (ℚ × ℚ))

@[simp] theorem apply_add (a b : ℚ) :
    Op.apply ⟨.num b :: .num a :: rest, dict, point⟩ .add = .ok ⟨.num (a + b) :: rest, dict, point⟩ := rfl

@[simp] theorem apply_sub (a b : ℚ) :
    Op.apply ⟨.num b :: .num a :: rest, dict, point⟩ .sub = .ok ⟨.num (a - b) :: rest, dict, point⟩ := rfl

@[simp] theorem apply_div {a b : ℚ} (hb : b ≠ 0) :
    Op.apply ⟨.num b :: .num a :: rest, dict, point⟩ .div = .ok ⟨.num (a / b) :: rest, dict, point⟩ := by
  change (if b = 0 then _ else _ : Except Err ℚ).map _ = _
  rw [if_neg hb]
  rfl

@[simp] theorem apply_dup (a : Obj ν) :
    Op.apply ⟨a :: rest, dict, point⟩ .dup = .ok ⟨a :: a :: rest, dict, point⟩ := rfl

@[simp] theorem apply_exch (a b : Obj ν) :
    Op.apply ⟨b :: a :: rest, dict, point⟩ .exch = .ok ⟨a :: b :: rest, dict, point⟩ := rfl

@[simp] theorem apply_pop (a : Obj ν) :
    Op.apply ⟨a :: rest, dict, point⟩ .pop = .ok ⟨rest, dict, point⟩ := rfl

@[simp] theorem apply_roll : Op.apply ⟨rest, dict, point⟩ .roll = rollItems ⟨rest, dict, point⟩ := rfl

@[simp] theorem apply_define (q : ℚ) (x : ν) :
    Op.apply ⟨.num q :: .lit x :: rest, dict, point⟩ .define =
      .ok ⟨rest, Function.update dict x (some (.num q)), point⟩ := rfl

@[simp] theorem apply_moveto (x y : ℚ) :
    Op.apply ⟨.num y :: .num x :: rest, dict, point⟩ .moveto = .ok ⟨rest, dict, some (x, y)⟩ := rfl

@[simp] theorem apply_currentpoint (x y : ℚ) :
    Op.apply ⟨rest, dict, some (x, y)⟩ .currentpoint =
      .ok ⟨.num y :: .num x :: rest, dict, some (x, y)⟩ := rfl

@[simp] theorem apply_currentpoint_none :
    Op.apply ⟨rest, dict, none⟩ .currentpoint = .error .nocurrentpoint := rfl

end

end

end Postscript
