import DecimalScript.Proofs.Course
import Mathlib

/-! One layer of an evaluation: a term is given a value by means of any evaluation
of the terms below it. The calls of a term are all the places where that other
evaluation is asked, so the course of an evaluation leaves nothing out. -/

namespace DecimalScript.Run

variable {α β : Type} {s : State} {limit : Nat} {f : Term → Run Value}

/-- Whether all comparisons of a chain hold, with `f` for the operands. -/
def linksBy (f : Term → Run Value) (left : Term) : List String → List Term → Run Bool
  | operator :: operators, right :: rest => do
    let x ← numeric .operation (← f left)
    let y ← numeric .operation (← f right)
    if ← compare x operator y then linksBy f right operators rest
    else return false
  | _, _ => pure true

/-- The value of a term, with `f` for the terms right below it. -/
def evalBy (limit : Nat) (f : Term → Run Value) : Term → Run Value
  | .sequence items => items.foldlM (fun _ item => f item) .none
  | .traced note pos item => do
    whenTracing (announce pos)
    let value ← f item
    whenTracing (announceEffect note value)
    return value
  | .assign name namePos op value pos => do
    let value ← f value
    match op with
    | .error defect => fail (.malformed defect)
    | .ok op =>
      assign name namePos op value pos
      return .none
  | .leave target guard result pos => do
    let name ← findLoop target .breakOutsideLoop pos
    if (← f guard).holds then
      let result ← f result
      throw (.signal (.leave name result))
    else return .none
  | .skip target guard pos => do
    let name ← findLoop target .nextOutsideLoop pos
    if (← f guard).holds then throw (.signal (.skip name))
    else return .none
  | .loop name start stop step showsStep body pos =>
    insideLoop name pos do
      let start ← numeric .loopStart (← f start)
      let stop ← numeric .loopEnd (← f stop)
      let step ← numeric .loopStep (← f step)
      loopOver limit { name, start, stop, step, showsStep, pos } (f body)
  | .print items => do
    printValues (← items.mapM f)
    return .none
  | .row items => do return .rowOf (← items.mapM f)
  | .numeric usage item => do return .decimal (← numeric usage (← f item))
  | .unwrapped item => do return .decimal (← toDecimal (← f item))
  | .sum minus left right => do
    let x ← numeric .sum (← f left)
    let y ← numeric .sum (← f right)
    return .decimal (← if minus then sub x y else add x y)
  | .product op left right pos => do
    let x ← toDecimal (← f left)
    let y ← numeric .product (← f right)
    return .decimal (← multiply op x y pos)
  | .power base exponent pos => do
    let x ← numeric .powerBase (← f base)
    let y ← numeric .powerExponent (← f exponent)
    return .power x y (← pow x y pos)
  | .signed minus item => do
    let x ← numeric .unary (← f item)
    return .decimal (← if minus then negate x else pure x)
  | .call name pos items => do call name pos (← items.mapM f)
  | .conditional condition holds otherwise => do
    match ← f condition with
    | .bool true => f holds
    | .bool false => f otherwise
    | _ => blame .conditionNotBoolean
  | .boolean connective item => do
    return .bool (← truth .left connective (← f item))
  | .connected connective left right => do
    let first ← truth .left connective (← f left)
    if first = (connective = .or) then return .bool first
    else return .bool (← truth .right connective (← f right))
  | .negated item => do
    match ← f item with
    | .bool b => return .bool (!b)
    | value => blame (.negatedNotBoolean value.typeName)
  | .comparison first operators rest => do return .bool (← linksBy f first operators rest)
  -- these have no term below them
  | t => eval limit t

/-! ### Evaluation is its own layer -/

theorem evalAll_eq_mapM (limit : Nat) (items : List Term) :
    evalAll limit items = items.mapM (eval limit) := by
  induction items with
  | nil => rw [evalAll, List.mapM_nil]
  | cons item rest ih => rw [evalAll, List.mapM_cons, ih]

theorem evalSequence_eq_foldlM (limit : Nat) (value : Value) (items : List Term) :
    evalSequence limit value items = items.foldlM (fun _ item => eval limit item) value := by
  induction items generalizing value with
  | nil => rw [evalSequence, List.foldlM_nil]
  | cons item rest ih =>
    rw [evalSequence, List.foldlM_cons]
    simp only [ih]

theorem evalLinks_eq_linksBy (limit : Nat) (left : Term) (operators : List String)
    (rest : List Term) :
    evalLinks limit (eval limit left) operators rest =
      linksBy (eval limit) left operators rest := by
  induction operators generalizing left rest with
  | nil => rw [evalLinks.eq_2 _ _ _ _ (by simp), linksBy.eq_2 _ _ _ _ (by simp)]
  | cons operator operators ih =>
    cases rest with
    | nil => rw [evalLinks.eq_2 _ _ _ _ (by simp), linksBy.eq_2 _ _ _ _ (by simp)]
    | cons right rest => rw [evalLinks, linksBy, ih]

theorem evalBy_eval (limit : Nat) (t : Term) : evalBy limit (eval limit) t = eval limit t := by
  cases t with
  | sequence items => rw [eval, evalSequence_eq_foldlM]; rfl
  | print items => rw [eval, evalAll_eq_mapM]; rfl
  | row items => rw [eval, evalAll_eq_mapM]; rfl
  | call name pos items => rw [eval, evalAll_eq_mapM]; rfl
  | comparison first operators rest => rw [eval, evalLinks_eq_linksBy]; rfl
  | constant | exactNumber | number | quoted | var | unsupported | malformed => rfl
  | _ => rw [eval]; rfl

/-! ### A layer asks for nothing but the calls -/

/-- Two calculations from one state that begin alike and go on alike. -/
theorem bind_congr_at {x y : Run α} {g h : α → Run β} (hx : x s = y s)
    (hg : ∀ a t, y s = (.ok a, t) → g a t = h a t) : (x >>= g) s = (y >>= h) s := by
  rw [bind_apply, bind_apply, hx]
  cases hy : y s with
  | mk r t =>
    cases r with
    | ok a => exact hg a t hy
    | error e => rfl

/-- `f` is as good as evaluation at these places. -/
def Agrees (limit : Nat) (f : Term → Run Value) (course : List (Term × State)) : Prop :=
  ∀ u v, (u, v) ∈ course → f u v = eval limit u v

theorem Agrees.head {t : Term} {rest : List (Term × State)}
    (h : Agrees limit f ((t, s) :: rest)) : f t s = eval limit t s := h t s (by simp)

theorem Agrees.tail {call : Term × State} {rest : List (Term × State)}
    (h : Agrees limit f (call :: rest)) : Agrees limit f rest :=
  fun u v hm => h u v (by simp [hm])

theorem Agrees.after {run : Run α} {next : α → State → List (Term × State)} {a : α} {t : State}
    (h : Agrees limit f (Run.after run s next)) (hr : run s = (.ok a, t)) :
    Agrees limit f (next a t) := fun u v hm => h u v (mem_after.mpr ⟨a, t, hr, hm⟩)

/-- An operand and what is made of it. -/
theorem Agrees.bind {t : Term} {test : Value → Run α} {next : α → State → List (Term × State)}
    {g h : α → Run β} (hc : Agrees limit f (callsThen limit t test s next))
    (hg : ∀ a u, Agrees limit f (next a u) → g a u = h a u) :
    (do g (← test (← f t))) s = (do h (← test (← eval limit t))) s := by
  refine bind_congr_at hc.head fun value u hu => bind_congr_at rfl fun a v hv => ?_
  exact hg a v ((hc.tail.after hu).after hv)

theorem mapM_congr {items : List Term} (h : Agrees limit f (callsInTurn limit items s)) :
    items.mapM f s = items.mapM (eval limit) s := by
  induction items generalizing s with
  | nil => rfl
  | cons item rest ih =>
    rw [List.mapM_cons, List.mapM_cons]
    refine bind_congr_at h.head fun value t ht => ?_
    exact bind_congr_at (ih (h.tail.after ht)) fun _ _ _ => rfl

theorem foldlM_congr {items : List Term} {value : Value}
    (h : Agrees limit f (callsInTurn limit items s)) :
    items.foldlM (fun _ item => f item) value s =
      items.foldlM (fun _ item => eval limit item) value s := by
  induction items generalizing s value with
  | nil => rfl
  | cons item rest ih =>
    rw [List.foldlM_cons, List.foldlM_cons]
    exact bind_congr_at h.head fun value t ht => ih (h.tail.after ht)

theorem linksBy_congr {left : Term} {operators : List String} {rest : List Term}
    (h : Agrees limit f (callsOfLinks limit left operators rest s)) :
    linksBy f left operators rest s = linksBy (eval limit) left operators rest s := by
  induction operators generalizing s left rest with
  | nil => rw [linksBy.eq_2 _ _ _ _ (by simp), linksBy.eq_2 _ _ _ _ (by simp)]
  | cons operator operators ih =>
    cases rest with
    | nil => rw [linksBy.eq_2 _ _ _ _ (by simp), linksBy.eq_2 _ _ _ _ (by simp)]
    | cons right rest =>
      refine Agrees.bind h fun x t hx => Agrees.bind hx fun y u hy => ?_
      refine bind_congr_at rfl fun holds v hv => ?_
      have hrest := hy.after hv
      cases holds with
      | true => exact ih hrest
      | false => rfl

theorem pass_congr {name : String} {x y : Run Value} {progress : Progress} (h : x s = y s) :
    pass name x progress s = pass name y progress s := by
  refine bind_congr_at ?_ fun _ _ _ => rfl
  unfold catchSignal
  rw [h]

/-- The body of a loop counts only where a pass begins. -/
theorem passes_congr {range : Range} {up : Bool} {x y : Run Value} {count : Nat}
    {progress : Progress} (h : ∀ v ∈ passStates range up y count progress s, x v = y v) :
    passes range up x count progress s = passes range up y count progress s := by
  induction count generalizing progress s with
  | zero => rfl
  | succ count ih =>
    rw [passes, passes]
    refine bind_congr_at rfl fun n t ht => bind_congr_at rfl fun isOn u hu => ?_
    have hpass {v : State} (hv : v ∈ _) :=
      h v (mem_after.mpr ⟨n, t, ht, mem_after.mpr ⟨isOn, u, hu, hv⟩⟩)
    cases isOn with
    | false => simp only [Bool.false_eq_true, ↓reduceIte]
    | true =>
      refine bind_congr_at rfl fun _ v hv => ?_
      have hbegin {w : State} (hw : w ∈ _) := hpass (mem_after.mpr ⟨(), v, hv, hw⟩)
      refine bind_congr_at (pass_congr (hbegin (List.mem_cons_self ..))) ?_
      rintro ⟨progress', left⟩ w hw
      cases left with
      | true => simp only [↓reduceIte]
      | false =>
        refine bind_congr_at rfl fun _ z hz => ih fun r hr => hbegin (List.mem_cons_of_mem _ ?_)
        exact mem_after.mpr ⟨_, w, hw, mem_after.mpr ⟨(), z, hz, hr⟩⟩

theorem insideLoop_congr {name : String} {pos : Option Pos} {x y : Run α}
    (h : s.loops.contains name = false →
      x { s with loops := name :: s.loops } = y { s with loops := name :: s.loops }) :
    insideLoop name pos x s = insideLoop name pos y s := by
  unfold insideLoop
  split
  · rfl
  · rename_i hn
    rw [h (by simpa using hn)]

/-- The value of a term depends on the evaluation of other terms at its calls alone. -/
theorem evalBy_congr {t : Term} (h : Agrees limit f (calls limit t s)) :
    evalBy limit f t s = eval limit t s := by
  rw [← evalBy_eval]
  cases t with
  | sequence items => exact foldlM_congr h
  | traced note pos item =>
    refine bind_congr_at rfl fun _ t ht => ?_
    exact bind_congr_at (h.after ht).head fun _ _ _ => rfl
  | assign | numeric | unwrapped | signed | boolean | negated =>
    exact bind_congr_at h.head fun _ _ _ => rfl
  | leave target guard result pos =>
    refine bind_congr_at rfl fun name t ht => ?_
    have hguard := h.after ht
    refine bind_congr_at hguard.head fun value u hu => ?_
    have hresult := hguard.tail.after hu
    split
    · rename_i hv
      rw [if_pos hv] at hresult
      exact bind_congr_at hresult.head fun _ _ _ => rfl
    · rfl
  | skip target guard pos =>
    refine bind_congr_at rfl fun name t ht => ?_
    exact bind_congr_at (h.after ht).head fun _ _ _ => rfl
  | loop name start stop step showsStep body pos =>
    rw [evalBy, evalBy]
    refine insideLoop_congr fun hn => ?_
    dsimp only [calls] at h
    rw [hn] at h
    refine Agrees.bind h fun first t ht => Agrees.bind ht fun last u hu =>
      Agrees.bind hu fun width v hv => ?_
    refine bind_congr_at rfl fun (before, up) w hw => ?_
    have hbody := hv.after hw
    refine bind_congr_at (passes_congr fun x hx => hbody body x ?_) fun _ _ _ => rfl
    exact List.mem_map.mpr ⟨x, hx, rfl⟩
  | print items => exact bind_congr_at (mapM_congr h) fun _ _ _ => rfl
  | row items => exact bind_congr_at (mapM_congr h) fun _ _ _ => rfl
  | sum minus left right =>
    exact Agrees.bind h fun x t ht => bind_congr_at ht.head fun _ _ _ => rfl
  | product op left right pos =>
    exact Agrees.bind h fun x t ht => bind_congr_at ht.head fun _ _ _ => rfl
  | power base exponent pos =>
    exact Agrees.bind h fun x t ht => bind_congr_at ht.head fun _ _ _ => rfl
  | call name pos items => exact bind_congr_at (mapM_congr h) fun _ _ _ => rfl
  | conditional condition holds otherwise =>
    refine bind_congr_at h.head fun value t ht => ?_
    have hbranch := h.tail.after ht
    split
    · exact hbranch.head
    · exact hbranch.head
    · rfl
  | connected connective left right =>
    refine Agrees.bind h fun first t ht => ?_
    split
    · rfl
    · rename_i hne
      rw [if_neg hne] at ht
      exact bind_congr_at ht.head fun _ _ _ => rfl
  | comparison first operators rest => exact bind_congr_at (linksBy_congr h) fun _ _ _ => rfl
  | _ => rfl

end DecimalScript.Run
