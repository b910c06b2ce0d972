import MacroAssembler.Proofs.FormulaChain

/-!
# Precedence

The usual way to read a chain of operands and operators takes the groups of operators from the
tightest to the loosest.  For each group it goes through the chain once, from left to right, and
combines the operands on both sides of every operator of the group.  The evaluator works from the
other end: it splits the chain at the last operator of the loosest group.

Both come to the same tree.  The passes for tighter groups go on separately on the two sides of such
an operator.  When its own group is due, nothing is left behind it, and in front of it only
operators of the same group, so it is combined last.
-/

namespace MacroAssembler

/-- How a chain is read: which operands each operator combines. -/
inductive Bracketing where
  | operand (x : Float)
  | combined (op : Operator) (l r : Bracketing)

namespace Bracketing

/-- The operands, from left to right. -/
def operands : Bracketing → List Float
  | operand x => [x]
  | combined _ l r => l.operands ++ r.operands

/-- The operators, from left to right. -/
def operators : Bracketing → List Operator
  | operand _ => []
  | combined op l r => l.operators ++ op :: r.operators

def value : Bracketing → Except ExprError Float
  | operand x => .ok x
  | combined op l r => do
    let x ← l.value
    let y ← r.value
    op.apply x y

/-- Somewhere in the reading a division or a remainder has zero on its right. -/
def DividesByZero : Bracketing → Prop
  | operand _ => False
  | combined op l r => l.DividesByZero ∨ r.DividesByZero ∨
      (op = .div ∨ op = .rem) ∧ ∃ y, r.value = .ok y ∧ (y == 0) = true

end Bracketing

/-- Only a division or a remainder fails, and only by zero. -/
theorem Operator.apply_eq_error_iff {op : Operator} {x y : Float} {e : ExprError} :
    op.apply x y = .error e ↔ e = .divideByZero ∧ (op = .div ∨ op = .rem) ∧ (y == 0) = true := by
  have hdivide : ∀ z : Float, (if y == 0 then Except.error .divideByZero else .ok z) = .error e ↔
      e = .divideByZero ∧ (y == 0) = true := by
    intro z
    cases y == 0 with
    | true => exact ⟨fun h => ⟨(Except.error.inj h).symm, rfl⟩, fun h => h.1 ▸ rfl⟩
    | false => simp
  cases op with
  | div | rem => simpa [Operator.apply] using hdivide _
  | _ => simp [Operator.apply]

theorem Bracketing.value_eq_error_iff {r : Bracketing} {e : ExprError} :
    r.value = .error e ↔ e = .divideByZero ∧ r.DividesByZero := by
  induction r generalizing e with
  | operand x => simp [value, DividesByZero]
  | combined op l r ihl ihr =>
    rw [value, DividesByZero]
    cases hl : l.value with
    | error e' =>
      obtain ⟨rfl, hzero⟩ := ihl.1 hl
      exact ⟨fun h => ⟨(Except.error.inj h).symm, .inl hzero⟩, fun h => h.1 ▸ rfl⟩
    | ok x =>
      have hleft : ¬ l.DividesByZero := fun hzero => by
        cases (ihl.2 ⟨rfl, hzero⟩).symm.trans hl
      cases hr : r.value with
      | error e' =>
        obtain ⟨rfl, hzero⟩ := ihr.1 hr
        exact ⟨fun h => ⟨(Except.error.inj h).symm, .inr (.inl hzero)⟩, fun h => h.1 ▸ rfl⟩
      | ok y =>
        have hright : ¬ r.DividesByZero := fun hzero => by
          cases (ihr.2 ⟨rfl, hzero⟩).symm.trans hr
        have hvalue : (∃ y', Except.ok (ε := ExprError) y = .ok y' ∧ (y' == 0) = true) ↔
            (y == 0) = true := by
          simp
        simp only [hleft, hright, false_or, hvalue]
        exact Operator.apply_eq_error_iff

/-! ## Passes over a chain -/

/-- A first operand, and operators, each with the operand behind it. -/
abbrev BracketingChain := Bracketing × List (Operator × Bracketing)

namespace BracketingChain

/-- One pass: the operators of a group combine the operands beside them, from left to right. -/
def combine (group : Nat) (first : Bracketing) : List (Operator × Bracketing) → BracketingChain
  | [] => (first, [])
  | (op, x) :: rest =>
    if op.group = group then combine group (.combined op first x) rest
    else (first, (op, (combine group x rest).1) :: (combine group x rest).2)

/-- The passes for some groups, one after the other. -/
def passes (groups : List Nat) (chain : BracketingChain) : BracketingChain :=
  groups.foldl (fun chain group => combine group chain.1 chain.2) chain

/-- The groups of operators, the tightest first. -/
def groups : List Nat :=
  [9, 8, 7, 6, 5, 4, 3, 2, 1, 0]

variable {group : Nat} {gs : List Nat} {first x : Bracketing} {op : Operator}
variable {front back : List (Operator × Bracketing)}

theorem combine_append (hop : op.group ≠ group) :
    combine group first (front ++ (op, x) :: back) =
      ((combine group first front).1,
        (combine group first front).2 ++ (op, (combine group x back).1) ::
        (combine group x back).2) := by
  induction front generalizing first with
  | nil => simp [combine, hop]
  | cons p front ih =>
    rw [List.cons_append, combine, combine]
    split
    · exact ih
    · rw [ih]
      rfl

theorem combine_append_same (hfront : ∀ p ∈ front, p.1.group = group) (hop : op.group = group) :
    combine group first (front ++ [(op, x)]) =
      (.combined op (combine group first front).1 x, []) := by
  induction front generalizing first with
  | nil => simp [combine, hop]
  | cons p front ih =>
    obtain ⟨hp, hfront⟩ := List.forall_mem_cons.1 hfront
    rw [List.cons_append, combine, if_pos hp, ih hfront, combine, if_pos hp]

theorem operators_combine (group : Nat) (first : Bracketing)
    (chain : List (Operator × Bracketing)) : (combine group first chain).2.map Prod.fst =
      (chain.map Prod.fst).filter (·.group ≠ group) := by
  induction chain generalizing first with
  | nil => rfl
  | cons p chain ih =>
    rw [combine]
    split
    next hp => simp [ih, hp]
    next hp => simp [ih, hp]

theorem passes_cons (g : Nat) (gs : List Nat) (chain : BracketingChain) :
    passes (g :: gs) chain = passes gs (combine g chain.1 chain.2) :=
  rfl

theorem passes_append (gs gs' : List Nat) (chain : BracketingChain) :
    passes (gs ++ gs') chain = passes gs' (passes gs chain) :=
  List.foldl_append

theorem passes_nil_right (gs : List Nat) (first : Bracketing) :
    passes gs (first, []) = (first, []) := by
  induction gs with
  | nil => rfl
  | cons g gs ih => exact ih

/-- An operator that is not due keeps its two sides apart. -/
theorem passes_split (hop : op.group ∉ gs) :
    passes gs (first, front ++ (op, x) :: back) =
      ((passes gs (first, front)).1,
        (passes gs (first, front)).2 ++ (op, (passes gs (x, back)).1) ::
        (passes gs (x, back)).2) := by
  induction gs generalizing first front x back with
  | nil => rfl
  | cons g gs ih =>
    rw [List.mem_cons, not_or] at hop
    obtain ⟨hg, hgs⟩ := hop
    rw [passes_cons, passes_cons, passes_cons, combine_append hg]
    exact ih hgs

/-- Of the operators, those that have not been due are left. -/
theorem operators_passes (gs : List Nat) (chain : BracketingChain) :
    (passes gs chain).2.map Prod.fst = (chain.2.map Prod.fst).filter (·.group ∉ gs) := by
  induction gs generalizing chain with
  | nil => simp [passes]
  | cons g gs ih =>
    rw [passes_cons, ih, operators_combine, List.filter_filter]
    refine List.filter_congr fun op _ => ?_
    simp [Bool.and_comm]

end BracketingChain

open BracketingChain

/-- **The usual reading** of a chain. -/
def Bracketing.ofChain (first : Bracketing) (chain : List (Operator × Bracketing)) : Bracketing :=
  (passes groups (first, chain)).1

theorem Bracketing.ofChain_nil (first : Bracketing) : ofChain first [] = first := by
  rw [ofChain, passes_nil_right]

theorem Operator.exists_groups (op : Operator) :
    ∃ tight loose, groups = tight ++ op.group :: loose ∧
    op.group ∉ tight ∧ ∀ op' : Operator, op.group < op'.group → op'.group ∈ tight := by
  refine ⟨groups.takeWhile (op.group < ·), (groups.dropWhile (op.group < ·)).tail, ?_, ?_, ?_⟩
  · cases op <;> rfl
  · cases op <;> decide
  · intro op'
    cases op <;> cases op' <;> decide

/-- **The reading is split where the evaluator splits.** -/
theorem Bracketing.ofChain_append {first x : Bracketing} {op : Operator}
    {front back : List (Operator × Bracketing)}
    (hfront : ∀ p ∈ front, op.group ≤ p.1.group) (hback : ∀ p ∈ back, op.group < p.1.group) :
    ofChain first (front ++ (op, x) :: back) = .combined op (ofChain first front)
      (ofChain x back) := by
  obtain ⟨tight, loose, hgroups, hop, htight⟩ := op.exists_groups
  have hnone : (passes tight (x, back)).2 = [] := by
    rw [← List.map_eq_nil_iff (f := Prod.fst), operators_passes, List.filter_eq_nil_iff]
    rintro op' hop'
    obtain ⟨p, hp, rfl⟩ := List.mem_map.1 hop'
    simpa using htight p.1 (hback p hp)
  have hsame : ∀ p ∈ (passes tight (first, front)).2, p.1.group = op.group := by
    intro p hp
    have hmem := List.mem_map_of_mem (f := Prod.fst) hp
    rw [operators_passes, List.mem_filter] at hmem
    obtain ⟨q, hq, hqp⟩ := List.mem_map.1 hmem.1
    have hle : op.group ≤ p.1.group := hqp ▸ hfront q hq
    have hnot : p.1.group ∉ tight := by simpa using hmem.2
    exact (hle.eq_or_lt.resolve_right fun hlt => hnot (htight p.1 hlt)).symm
  have hdone : (combine op.group (passes tight (first, front)).1
      (passes tight (first, front)).2).2 = [] := by
    rw [← List.map_eq_nil_iff (f := Prod.fst), operators_combine, List.filter_eq_nil_iff]
    rintro op' hop'
    obtain ⟨p, hp, rfl⟩ := List.mem_map.1 hop'
    simpa using hsame p hp
  have hleft : ofChain first front =
      (combine op.group (passes tight (first, front)).1 (passes tight (first, front)).2).1 := by
    rw [ofChain, hgroups, passes_append, passes_cons, ← Prod.mk.eta (p := combine ..), hdone,
      passes_nil_right]
  have hright : ofChain x back = (passes tight (x, back)).1 := by
    rw [ofChain, hgroups, passes_append, ← Prod.mk.eta (p := passes tight (x, back)), hnone,
      passes_nil_right]
  rw [hleft, hright, ofChain, hgroups, passes_append, passes_split hop, hnone, passes_cons,
    combine_append_same hsame rfl, passes_nil_right]

/-! ## The evaluator's split -/

theorem eq_nil_of_splitLoosest {α : Type} {chain : List (Operator × α)}
    (h : splitLoosest chain = none) : chain = [] := by
  cases chain with
  | nil => rfl
  | cons p chain =>
    rw [splitLoosest] at h
    split at h
    · split at h <;> cases h
    · cases h

/-- The operator of a split binds no more tightly than those in front of it, and less tightly than
those behind it. -/
theorem group_of_splitLoosest {α : Type} {chain front back : List (Operator × α)}
    {op : Operator} {x : α} (h : splitLoosest chain = some (front, op, x, back)) :
    (∀ p ∈ front, op.group ≤ p.1.group) ∧ ∀ p ∈ back, op.group < p.1.group := by
  fun_induction splitLoosest chain generalizing front op x back with
  | case1 => cases h
  | case2 op' y rest front' op'' z back' hrest hle ih =>
    cases h
    obtain ⟨hfront, hback⟩ := ih hrest
    exact ⟨List.forall_mem_cons.2 ⟨hle, hfront⟩, hback⟩
  | case3 op' y rest front' op'' z back' hrest hle ih =>
    cases h
    obtain ⟨hfront, hback⟩ := ih hrest
    have hlt := Nat.lt_of_not_le hle
    refine ⟨List.forall_mem_nil _, fun p hp => ?_⟩
    rw [eq_append_of_splitLoosest hrest] at hp
    rcases List.mem_append.1 hp with hp | hp
    · exact hlt.trans_le (hfront p hp)
    · rcases List.mem_cons.1 hp with rfl | hp
      · exact hlt
      · exact hlt.trans (hback p hp)
  | case4 op' y rest hrest ih =>
    cases h
    obtain rfl := eq_nil_of_splitLoosest hrest
    exact ⟨List.forall_mem_nil _, List.forall_mem_nil _⟩

/-- A chain of numbers, with every number read as itself. -/
def operandsOf (chain : List (Operator × Float)) : List (Operator × Bracketing) :=
  chain.map fun p => (p.1, .operand p.2)

/-- The reading of a chain has the operands and operators of the chain, and the value that the
evaluator finds. -/
theorem reduce_eq_value (first : Float) (chain : List (Operator × Float)) :
    let reading := Bracketing.ofChain (.operand first) (operandsOf chain)
    reading.operands = first :: chain.map Prod.snd ∧ reading.operators = chain.map Prod.fst ∧
      reduce first chain = reading.value := by
  fun_induction reduce first chain with
  | case1 first chain hnone =>
    obtain rfl := eq_nil_of_splitLoosest hnone
    rw [operandsOf, List.map_nil, Bracketing.ofChain_nil]
    exact ⟨rfl, rfl, rfl⟩
  | case2 first chain front op x back hsplit ihfront ihback =>
    obtain ⟨hfront, hback⟩ := group_of_splitLoosest hsplit
    obtain ⟨hoperands, hoperators, hvalue⟩ := ihfront
    obtain ⟨hoperands', hoperators', hvalue'⟩ := ihback
    have hsame : ∀ (k : Nat → Prop) {part : List (Operator × Float)}, (∀ p ∈ part, k p.1.group) →
        ∀ p ∈ operandsOf part, k p.1.group := by
      intro k part hpart p hp
      obtain ⟨q, hq, rfl⟩ := List.mem_map.1 hp
      exact hpart q hq
    have hreading : Bracketing.ofChain (.operand first) (operandsOf chain) = .combined op
        (.ofChain (.operand first) (operandsOf front))
          (.ofChain (.operand x) (operandsOf back)) := by
      rw [eq_append_of_splitLoosest hsplit, operandsOf, List.map_append, List.map_cons]
      exact Bracketing.ofChain_append (hsame (op.group ≤ ·) hfront) (hsame (op.group < ·) hback)
    rw [hreading, eq_append_of_splitLoosest hsplit]
    refine ⟨?_, ?_, ?_⟩
    · rw [Bracketing.operands, hoperands, hoperands']
      simp
    · rw [Bracketing.operators, hoperators, hoperators']
      simp
    · rw [hvalue, hvalue']
      rfl

/-! ## Operands and operators in two lists -/

/-- What can stop the evaluation of a chain in two lists: an index outside of them, or an
operator. -/
inductive ListFault where
  | outOfRange
  | failed (cause : ExprError)

/-- The last position in a list at which a test holds. -/
def lastPosition {α : Type} (p : α → Bool) : List α → Option Nat
  | [] => none
  | a :: rest =>
    match lastPosition p rest with
    | some i => some (i + 1)
    | none => if p a then some 0 else none

/-- The value of a chain whose operands are in one list and whose operators are in another.  Both
lists are cut at the last of the loosest operators. -/
def reduceLists (operands : List Float) (operators : List Operator) : Except ListFault Float :=
  match (operators.map Operator.group).min? with
  | none =>
    match operands[0]? with
    | some value => .ok value
    | none => .error .outOfRange
  | some loosest =>
    let split := (lastPosition (·.group == loosest) operators).getD 0
    -- the fronts up to the operator, the backs behind it and the operator itself are all there
    if h : split < operands.length ∧ split < operators.length then do
      let left ← reduceLists (operands.take (split + 1)) (operators.take split)
      let right ← reduceLists (operands.drop (split + 1)) (operators.drop (split + 1))
      (operators[split].apply left right).mapError .failed
    else .error .outOfRange
termination_by operators.length
decreasing_by
  · rw [List.length_take]
    omega
  · rw [List.length_drop]
    omega

theorem lastPosition_append {α : Type} {p : α → Bool} {a : α} {back : List α}
    (ha : p a = true) (hback : ∀ b ∈ back, p b = false) (front : List α) :
    lastPosition p (front ++ a :: back) = some front.length := by
  have hnone : lastPosition p back = none := by
    induction back with
    | nil => rfl
    | cons b back ih =>
      obtain ⟨hb, hback⟩ := List.forall_mem_cons.1 hback
      rw [lastPosition, ih hback]
      simp [hb]
  induction front with
  | nil =>
    rw [List.nil_append, lastPosition, hnone]
    simp [ha]
  | cons b front ih =>
    rw [List.cons_append, lastPosition, ih]
    rfl

/-- **The two lists of a chain are cut inside of them only**, and come to the value of the chain. -/
theorem reduceLists_eq_reduce (first : Float) (chain : List (Operator × Float)) :
    reduceLists (first :: chain.map Prod.snd) (chain.map Prod.fst) =
      (reduce first chain).mapError .failed := by
  fun_induction reduce first chain with
  | case1 first chain hnone =>
    obtain rfl := eq_nil_of_splitLoosest hnone
    rw [List.map_nil, List.map_nil, reduceLists]
    rfl
  | case2 first chain front op x back hsplit ihfront ihback =>
    obtain ⟨hfront, hback⟩ := group_of_splitLoosest hsplit
    obtain rfl := eq_append_of_splitLoosest hsplit
    have hmin : (((front ++ (op, x) :: back).map Prod.fst).map Operator.group).min? =
        some op.group := by
      refine List.min?_eq_some_iff.2 ⟨by simp, fun group hgroup => ?_⟩
      rw [List.map_map, List.mem_map] at hgroup
      obtain ⟨p, hp, rfl⟩ := hgroup
      rcases List.mem_append.1 hp with hp | hp
      · exact hfront p hp
      · rcases List.mem_cons.1 hp with rfl | hp
        · exact Nat.le_refl _
        · exact Nat.le_of_lt (hback p hp)
    have hlast : lastPosition (·.group == op.group) ((front ++ (op, x) :: back).map Prod.fst) =
        some front.length := by
      have hloosest : (op.group == op.group) = true := beq_self_eq_true _
      have htighter : ∀ op' ∈ back.map Prod.fst, (op'.group == op.group) = false := by
        intro op' hop'
        obtain ⟨p, hp, rfl⟩ := List.mem_map.1 hop'
        exact beq_false_of_ne (Nat.ne_of_gt (hback p hp))
      rw [List.map_append, List.map_cons]
      exact (lastPosition_append (p := fun op' : Operator => op'.group == op.group)
        hloosest htighter _).trans (congrArg some (List.length_map _))
    have hinside : front.length < (first :: (front ++ (op, x) :: back).map Prod.snd).length ∧
        front.length < ((front ++ (op, x) :: back).map Prod.fst).length := by
      constructor <;> simp
    rw [reduceLists, hmin]
    simp only [hlast, Option.getD_some]
    rw [dif_pos hinside]
    have hfronts : (first :: (front ++ (op, x) :: back).map Prod.snd).take (front.length + 1) =
        first :: front.map Prod.snd ∧
        ((front ++ (op, x) :: back).map Prod.fst).take front.length = front.map Prod.fst := by simp
    have hbacks : (first :: (front ++ (op, x) :: back).map Prod.snd).drop (front.length + 1) =
        x :: back.map Prod.snd ∧
        ((front ++ (op, x) :: back).map Prod.fst).drop (front.length + 1) = back.map Prod.fst := by
      simp [List.drop_append]
    have hop :
        ((front ++ (op, x) :: back).map Prod.fst).get ⟨front.length, hinside.2⟩ = op := by simp
    rw [hfronts.1, hfronts.2, hbacks.1, hbacks.2, ihfront, ihback]
    cases reduce first front with
    | error e => rfl
    | ok left =>
      cases reduce x back with
      | error e => rfl
      | ok right => exact congrArg (fun op' => (op'.apply left right).mapError ListFault.failed) hop

/-- **Splitting at the loosest operator is the usual reading.**  Given one operator less than
operands, a chain is worked out to the value of the reading that takes the groups from the tightest
to the loosest and combines from left to right.  The reading has all the operands and operators,
each in its place.  It fails only by a division by zero, and does so exactly if a division or a
remainder in it has zero on its right.  If operands and operators are kept in two lists, no index
into them is ever out of range. -/
theorem reduce_eq_reading (operands : List Float) (operators : List Operator)
    (h : operands.length = operators.length + 1) :
    ∃ first rest, operands = first :: rest ∧
      let reading := Bracketing.ofChain (.operand first) (operandsOf (operators.zip rest))
      reading.operands = operands ∧ reading.operators = operators ∧
      reduce first (operators.zip rest) = reading.value ∧
      reduceLists operands operators = reading.value.mapError .failed ∧
      reduceLists operands operators ≠ .error .outOfRange ∧
      ∀ e, reduce first (operators.zip rest) = .error e ↔ e = .divideByZero ∧
        reading.DividesByZero := by
  cases operands with
  | nil => cases h
  | cons first rest =>
    have hlength : operators.length = rest.length := (Nat.succ.inj h).symm
    obtain ⟨hoperands, hoperators, hvalue⟩ := reduce_eq_value first (operators.zip rest)
    have hlists := reduceLists_eq_reduce first (operators.zip rest)
    rw [List.map_snd_zip hlength.ge] at hoperands hlists
    rw [List.map_fst_zip hlength.le] at hoperators hlists
    rw [hvalue] at hlists
    refine ⟨first, rest, rfl, hoperands, hoperators, hvalue, hlists, ?_,
      fun e => hvalue ▸ Bracketing.value_eq_error_iff⟩
    rw [hlists]
    generalize Bracketing.value _ = value
    cases value with
    | ok x => exact nofun
    | error e => exact nofun

/-- In `8 - 4 - 2 * 3` the product is combined first, then the differences from the left. -/
theorem reduce_eq_reading_differences :
    Bracketing.ofChain (.operand 8) (operandsOf ([Operator.sub, .sub, .mul].zip [4, 2, 3])) =
      .combined .sub (.combined .sub (.operand 8) (.operand 4))
        (.combined .mul (.operand 2) (.operand 3)) ∧
    ∃ first rest, [8, 4, 2, 3] = first :: rest ∧
      let reading :=
        Bracketing.ofChain (.operand first) (operandsOf ([Operator.sub, .sub, .mul].zip rest))
      reading.operands = [8, 4, 2, 3] ∧ reading.operators = [.sub, .sub, .mul] ∧
      reduce first ([Operator.sub, .sub, .mul].zip rest) = reading.value ∧
      reduceLists [8, 4, 2, 3] [.sub, .sub, .mul] = reading.value.mapError .failed ∧
      reduceLists [8, 4, 2, 3] [.sub, .sub, .mul] ≠ .error .outOfRange ∧
      ∀ e, reduce first ([Operator.sub, .sub, .mul].zip rest) = .error e ↔
        e = .divideByZero ∧ reading.DividesByZero :=
  ⟨rfl, reduce_eq_reading [8, 4, 2, 3] [.sub, .sub, .mul] rfl⟩

end MacroAssembler
