import MacroAssembler.Proofs.MacroHistory

/-!
# The macro table refines its history

Here the table is put beside the logs of its keys.  `Tracks` says that a table stores what the logs
say, and that the definition which it remembers as the last one is the latest of the only open log,
as long as anything is stored under that key.  Every operation keeps this, so it holds of every
table.

The second half is about calls.  The replacements of a name are tried from the front, and each one
is tried in the state that the one before has left; trying stops at the first one that takes the
arguments, or at the first failure (`Selects`).  Since the list is ordered, the one that is found
was defined first among those of the highest rank.  What follows for a table as a whole is
`Refines`.
-/

namespace MacroAssembler

open MacroTable

theorem Index.lookup_remove {α : Type} (index : Index α) (name query : Text) :
    (index.remove name).lookup query = if query = name then none else index.lookup query := by
  induction index with
  | nil =>
    rw [remove, List.filter_nil, List.lookup_nil]
    split <;> rfl
  | cons first rest ih =>
    obtain ⟨key, value⟩ := first
    rw [remove] at ih ⊢
    by_cases hkey : key = name
    · rw [List.filter_cons_of_neg (by simp [hkey]), ih, List.lookup_cons]
      by_cases hquery : query = name
      · rw [if_pos hquery, if_pos hquery]
      · rw [if_neg hquery, if_neg hquery, beq_eq_false_iff_ne.2 fun h => hquery (h.trans hkey)]
    · rw [List.filter_cons_of_pos (by simp [hkey]), List.lookup_cons, List.lookup_cons, ih]
      by_cases hquery : query = key
      · rw [beq_iff_eq.2 hquery]
        exact (if_neg fun h => hkey (hquery.symm.trans h)).symm
      · rw [beq_eq_false_iff_ne.2 hquery]

namespace MacroTable

/-- The table after an operation.  One that fails leaves the table as it is. -/
def perform (table : MacroTable) : MacroOperation → MacroTable
  | .define name r => table.define name r
  | .undefine name => (table.undefine name).toOption.getD table
  | .append text => (table.append text).toOption.getD table

/-- The table after a sequence of operations, the first one first. -/
def ofHistory (caseSensitive : Bool) (history : List MacroOperation) : MacroTable :=
  history.foldl perform { caseSensitive := caseSensitive }

/-- The replacements that are stored under a key. -/
def stored (table : MacroTable) (key : Text) : List Replacement :=
  (table.macros.lookup key).getD []

variable (table : MacroTable)

theorem stored_put (key key' : Text) (list : List Replacement)
    (last : Option (Text × Replacement)) :
    stored { table with macros := table.macros.put key list, last := last } key' =
      if key' = key then list else table.stored key' := by
  rw [stored, Index.lookup_put]
  split <;> rfl

theorem perform_undefine (name : Text) :
    (table.perform (.undefine name)).last = table.last ∧
    (table.perform (.undefine name)).caseSensitive = table.caseSensitive ∧
    ∀ key, (table.perform (.undefine name)).stored key =
      if key = table.key name then [] else table.stored key := by
  rw [perform, undefine]
  by_cases hsome : (table.macros.lookup (table.key name)).isSome
  · rw [if_pos hsome]
    refine ⟨rfl, rfl, fun key => ?_⟩
    change ((Index.remove (table.key name) table.macros).lookup key).getD [] = _
    rw [Index.lookup_remove]
    split <;> rfl
  · rw [if_neg hsome]
    refine ⟨rfl, rfl, fun key => ?_⟩
    split
    next h =>
      rw [h]
      exact congrArg (·.getD []) (Option.not_isSome_iff_eq_none.1 hsome)
    · rfl

/-- What is appended to is looked for in what is stored under the key of the last definition. -/
theorem append_eq {key : Text} {r : Replacement} (hlast : table.last = some (key, r))
    (text : Text) : table.append text =
      match updateFirst r (Replacement.extend text) (table.stored key) with
      | some list => .ok { table with
          macros := table.macros.put key list, last := some (key, r.extend text) }
      | none => .error (.unknownMacro key) := by
  simp only [append, hlast, stored]
  cases table.macros.lookup key <;> rfl

end MacroTable

/-! ## A table beside its logs -/

open MacroLog

/-- A table stores what the logs of its keys say, and knows the last definition. -/
structure Tracks (table : MacroTable) (log : Text → MacroLog) : Prop where
  lists : ∀ key, Lists (log key).entries (table.stored key)
  isOpen_iff : ∀ key, (log key).isOpen = true ↔
    ∃ r, table.last = some (key, r) ∧ (log key).entries ≠ []
  signature_last : ∀ {key r d older}, table.last = some (key, r) → (log key).entries = d :: older →
    d.signature = r.signature

namespace Tracks

variable {table : MacroTable} {log : Text → MacroLog}

/-- What is appended goes to the replacement with the signature of the last definition. -/
theorem append_of_isOpen (h : Tracks table log) {key : Text} (hopen : (log key).isOpen = true)
    (text : Text) : ∃ d older front s back r, log key = ⟨d :: older, true⟩ ∧
      table.last = some (key, r) ∧ s.signature = d.signature ∧
      table.stored key = front ++ s :: back ∧ table.append text = .ok { table with
        macros := table.macros.put key (front ++ s.extend text :: back)
        last := some (key, r.extend text) } := by
  obtain ⟨r, hlast, hne⟩ := (h.isOpen_iff key).1 hopen
  obtain ⟨d, older, hentries⟩ := List.exists_cons_of_ne_nil hne
  have hd := h.signature_last hlast hentries
  have hmem : d ∈ table.stored key := by
    rw [(h.lists key).mem_iff, hentries]
    exact current_cons.2 (.inl rfl)
  have happend := table.append_eq hlast text
  rcases updateFirst_cases r (Replacement.extend text) (table.stored key) with
    ⟨front, s, back, hstored, hs, hupdate⟩ | ⟨hnone, -⟩
  · rw [hupdate] at happend
    refine ⟨d, older, front, s, back, r, ?_, hlast, hs.trans hd.symm, hstored, happend⟩
    rw [← hentries, ← hopen]
  · exact absurd hd (hnone d hmem)

theorem append_of_closed (h : Tracks table log) (hclosed : ∀ key, (log key).isOpen = false)
    (text : Text) : ∃ e, table.append text = .error e := by
  cases hlast : table.last with
  | none => exact ⟨_, by rw [MacroTable.append, hlast]⟩
  | some last =>
    obtain ⟨key, r⟩ := last
    have hentries : (log key).entries = [] := by
      by_contra hne
      exact Bool.false_ne_true ((hclosed key).symm.trans ((h.isOpen_iff key).2 ⟨r, hlast, hne⟩))
    have hstored : table.stored key = [] := (hentries ▸ h.lists key).eq_nil
    rw [table.append_eq hlast, hstored]
    exact ⟨_, rfl⟩

theorem define (h : Tracks table log) (name : Text) (r : Replacement) :
    Tracks (table.define name r) fun key =>
      (log key).note table.caseSensitive key (.define name r) := by
  have hnote : ∀ key, (log key).note table.caseSensitive key (.define name r) =
      if key = table.key name then ⟨r :: (log key).entries, true⟩ else ⟨(log key).entries, false⟩ :=
    fun key => if_congr eq_comm rfl rfl
  constructor
  case lists =>
    intro key
    rw [hnote, MacroTable.define, stored_put]
    split
    next hkey => exact hkey ▸ (h.lists key).define r
    next hkey => exact h.lists key
  case isOpen_iff =>
    intro key
    rw [hnote]
    split
    next hkey =>
      exact iff_of_true rfl
        ⟨r, congrArg (fun key => some (key, r)) hkey.symm, List.cons_ne_nil _ _⟩
    next hkey =>
      refine iff_of_false Bool.false_ne_true ?_
      rintro ⟨s, hlast, -⟩
      cases hlast
      exact hkey rfl
  case signature_last =>
    intro key s d older hlast hentries
    cases hlast
    rw [hnote, if_pos rfl] at hentries
    cases hentries
    rfl

theorem undefine (h : Tracks table log) (name : Text) :
    Tracks (table.perform (.undefine name)) fun key =>
      (log key).note table.caseSensitive key (.undefine name) := by
  obtain ⟨hlast, -, hstored⟩ := table.perform_undefine name
  have hnote : ∀ key, (log key).note table.caseSensitive key (.undefine name) =
      if key = table.key name then {} else log key :=
    fun key => if_congr eq_comm rfl rfl
  constructor
  case lists =>
    intro key
    rw [hnote, hstored]
    split
    · exact Lists.nil
    · exact h.lists key
  case isOpen_iff =>
    intro key
    rw [hnote, hlast]
    split
    · exact iff_of_false Bool.false_ne_true fun hex => hex.elim fun r hr => hr.2 rfl
    · exact h.isOpen_iff key
  case signature_last =>
    intro key r d older hkey hentries
    rw [hlast] at hkey
    rw [hnote] at hentries
    split at hentries
    · cases hentries
    · exact h.signature_last hkey hentries

theorem note_of_closed {log : MacroLog} (hclosed : log.isOpen = false) (caseSensitive : Bool)
    (key text : Text) : log.note caseSensitive key (.append text) = log := by
  obtain ⟨entries, isOpen⟩ := log
  cases hclosed
  cases entries <;> rfl

theorem append (h : Tracks table log) (text : Text) :
    Tracks (table.perform (.append text)) fun key =>
      (log key).note table.caseSensitive key (.append text) := by
  by_cases hexists : ∃ key, (log key).isOpen = true
  · obtain ⟨key, hopen⟩ := hexists
    obtain ⟨d, older, front, s, back, r, hlog, hlast, hs, hstored, happend⟩ :=
      h.append_of_isOpen hopen text
    have hnote : ∀ key', (log key').note table.caseSensitive key' (.append text) =
        if key' = key then ⟨d.extend text :: older, true⟩ else log key' := by
      intro key'
      split
      next hkey => rw [hkey, hlog, note]
      next hkey =>
        refine note_of_closed (Bool.eq_false_iff.2 fun hopen' => hkey ?_) _ _ _
        obtain ⟨r', hlast', -⟩ := (h.isOpen_iff key').1 hopen'
        exact (Prod.mk.inj (Option.some.inj (hlast'.symm.trans hlast))).1
    rw [MacroTable.perform, happend]
    constructor
    case lists =>
      intro key'
      rw [hnote]
      refine (stored_put table key key' _ _).symm ▸ ?_
      split
      · have hlists := h.lists key
        rw [hlog, hstored] at hlists
        exact hlists.extend hs text
      · exact h.lists key'
    case isOpen_iff =>
      intro key'
      rw [hnote]
      split
      next hkey =>
        exact iff_of_true rfl
          ⟨_, congrArg (fun key => some (key, r.extend text)) hkey.symm, List.cons_ne_nil _ _⟩
      next hkey =>
        rw [h.isOpen_iff key', hlast]
        refine iff_of_false ?_ ?_
        · rintro ⟨r', hlast', -⟩
          cases hlast'
          exact hkey rfl
        · rintro ⟨r', hlast', -⟩
          cases hlast'
          exact hkey rfl
    case signature_last =>
      intro key' r' d' older' hlast' hentries
      cases hlast'
      rw [hnote, if_pos rfl] at hentries
      cases hentries
      have hd : d.signature = r.signature := h.signature_last hlast (congrArg MacroLog.entries hlog)
      exact hd
  · have hclosed : ∀ key, (log key).isOpen = false := fun key =>
      Bool.eq_false_iff.2 fun hopen => hexists ⟨key, hopen⟩
    obtain ⟨e, happend⟩ := h.append_of_closed hclosed text
    have hnote : (fun key => (log key).note table.caseSensitive key (.append text)) = log :=
      funext fun key => note_of_closed (hclosed key) _ _ _
    rw [MacroTable.perform, happend, hnote]
    exact h

/-- Every operation is tracked. -/
theorem step (h : Tracks table log) (op : MacroOperation) :
    Tracks (table.perform op) fun key => (log key).note table.caseSensitive key op := by
  cases op with
  | define name r => exact h.define name r
  | undefine name => exact h.undefine name
  | append text => exact h.append text

end Tracks

theorem MacroTable.caseSensitive_perform (table : MacroTable) (op : MacroOperation) :
    (table.perform op).caseSensitive = table.caseSensitive := by
  cases op with
  | define name r => rfl
  | undefine name => exact (table.perform_undefine name).2.1
  | append text =>
    rw [perform]
    cases hlast : table.last with
    | none => rw [append, hlast]; rfl
    | some last =>
      rw [table.append_eq hlast]
      split <;> rfl

theorem Tracks.run {table : MacroTable} {log : Text → MacroLog} (h : Tracks table log)
    (history : List MacroOperation) : Tracks (history.foldl MacroTable.perform table) fun key =>
      history.foldl (note table.caseSensitive key) (log key) := by
  induction history generalizing table log with
  | nil => exact h
  | cons op history ih =>
    have hrun := ih (h.step op)
    rw [caseSensitive_perform] at hrun
    exact hrun

theorem tracks_ofHistory (caseSensitive : Bool) (history : List MacroOperation) :
    Tracks (MacroTable.ofHistory caseSensitive history) fun key =>
      .ofHistory caseSensitive key history := by
  have hstart : Tracks { caseSensitive } fun _ => {} := by
    refine ⟨fun key => Lists.nil, fun key => iff_of_false Bool.false_ne_true ?_, fun hlast => ?_⟩
    · rintro ⟨r, -, hne⟩
      exact hne rfl
    · cases hlast
  exact hstart.run history

/-! ## Calls -/

namespace MacroTable

section Trying

variable {σ : Type} (eval : Text → StateM σ (Option Float)) (expandArg : Text → ExpandM σ Text)
  (args : List Text)

/-- Whether a replacement takes an argument list. -/
def takes (r : Replacement) : ExpandM σ Bool :=
  match r.slots with
  | some slots =>
    if slots.length = args.length then slotsMatch eval expandArg slots args else return false
  | none => return false

/-- None of the replacements takes the argument list, when one is tried after the other. -/
inductive Refuse : List Replacement → σ → σ → Prop
  | nil (s : σ) : Refuse [] s s
  | cons {r : Replacement} {rest : List Replacement} {s s₁ s₂ : σ}
      (first : takes eval expandArg args r s = .ok false s₁) (others : Refuse rest s₁ s₂) :
      Refuse (r :: rest) s s₂

/-- What a call may be replaced by.  The flag tells whether the argument list is used up. -/
inductive Selects (before : Replacement → Replacement → Prop) (list : List Replacement) (s : σ) :
    EStateM.Result MacroError σ (Option (Replacement × Bool)) → Prop
  /-- The first that takes the arguments. -/
  | taken {front back : List Replacement} {r : Replacement} {s₁ s₂ : σ}
      (split : list = front ++ r :: back) (refused : Refuse eval expandArg args front s s₁)
      (takes_r : takes eval expandArg args r s₁ = .ok true s₂) (first : ∀ q ∈ back, before r q) :
      Selects before list s (.ok (some (r, true)) s₂)
  /-- A failure ends the search. -/
  | failed {front back : List Replacement} {r : Replacement} {s₁ s₂ : σ} {e : MacroError}
      (split : list = front ++ r :: back) (refused : Refuse eval expandArg args front s s₁)
      (fails : takes eval expandArg args r s₁ = .error e s₂) :
      Selects before list s (.error e s₂)
  /-- Without any, the one that is written without brackets. -/
  | plain {r : Replacement} {s₁ : σ} (refused : Refuse eval expandArg args list s s₁)
      (mem : r ∈ list) (slots_r : r.slots = none) :
      Selects before list s (.ok (some (r, false)) s₁)
  | nothing {s₁ : σ} (refused : Refuse eval expandArg args list s s₁)
      (slots_ne : ∀ r ∈ list, r.slots ≠ none) :
      Selects before list s (.ok none s₁)

theorem selectCall_cons (r : Replacement) (rest : List Replacement) :
    selectCall eval expandArg args (r :: rest) = takes eval expandArg args r >>= fun taken =>
      if taken then pure (some r) else selectCall eval expandArg args rest := by
  rw [selectCall, takes]
  cases r.slots <;> rfl

/-- The replacements are tried one after the other, up to the first that does not refuse. -/
theorem selectCall_cases (list : List Replacement) (s : σ) :
    (∃ s₁, Refuse eval expandArg args list s s₁ ∧
      selectCall eval expandArg args list s = .ok none s₁) ∨
    ∃ front r back s₁ s₂, list = front ++ r :: back ∧ Refuse eval expandArg args front s s₁ ∧
      (takes eval expandArg args r s₁ = .ok true s₂ ∧
          selectCall eval expandArg args list s = .ok (some r) s₂ ∨
        ∃ e, takes eval expandArg args r s₁ = .error e s₂ ∧
          selectCall eval expandArg args list s = .error e s₂) := by
  induction list generalizing s with
  | nil => exact .inl ⟨s, .nil s, rfl⟩
  | cons r rest ih =>
    rw [selectCall_cons]
    cases htakes : takes eval expandArg args r s with
    | error e s₁ =>
      rw [bind_of_error htakes]
      exact .inr ⟨[], r, rest, s, s₁, rfl, .nil s, .inr ⟨e, htakes, rfl⟩⟩
    | ok verdict s₁ =>
      rw [bind_of_ok htakes]
      cases verdict with
      | true => exact .inr ⟨[], r, rest, s, s₁, rfl, .nil s, .inl ⟨htakes, rfl⟩⟩
      | false =>
        rcases ih s₁ with ⟨s₂, hrefused, hselect⟩ | ⟨front, q, back, s₂, s₃, rfl, hrefused, hstops⟩
        · exact .inl ⟨s₂, .cons htakes hrefused, hselect⟩
        · exact .inr ⟨r :: front, q, back, s₂, s₃, rfl, .cons htakes hrefused, hstops⟩

variable {eval expandArg args} {s : σ} {list : List Replacement}

theorem select_selects {before : Replacement → Replacement → Prop} (hordered : list.Pairwise before)
    (s : σ) : Selects eval expandArg args before list s
      (select eval expandArg list (some args) s) := by
  rw [select]
  rcases selectCall_cases eval expandArg args list s with ⟨s₁, hrefused, hselect⟩ |
    ⟨front, r, back, s₁, s₂, rfl, hrefused, ⟨htakes, hselect⟩ | ⟨e, hfails, hselect⟩⟩
  · rw [bind_of_ok hselect]
    cases hfind : list.find? (·.slots.isNone) with
    | none =>
      refine Selects.nothing hrefused fun r hr hslots => ?_
      exact List.find?_eq_none.1 hfind r hr (Option.isNone_iff_eq_none.2 hslots)
    | some r =>
      have hslots := List.find?_some hfind
      exact Selects.plain hrefused (List.mem_of_find?_eq_some hfind)
        (Option.isNone_iff_eq_none.1 hslots)
  · rw [bind_of_ok hselect]
    obtain ⟨-, hback, -⟩ := List.pairwise_append.1 hordered
    exact Selects.taken rfl hrefused htakes (List.pairwise_cons.1 hback).1
  · rw [bind_of_error hselect]
    exact Selects.failed rfl hrefused hfails

end Trying

end MacroTable

/-! ## Refinement -/

/-- A table is what its history says: what it stores, when it can be appended to and what that
changes, and what it gives for a call. -/
structure Refines (caseSensitive : Bool) (history : List MacroOperation) (table : MacroTable) :
    Prop where
  lists : ∀ key, Lists (ofHistory caseSensitive key history).entries (table.stored key)
  append_iff : ∀ text, (∃ table', table.append text = .ok table') ↔
    ∃ key, (ofHistory caseSensitive key history).isOpen = true
  append_changes : ∀ text table', table.append text = .ok table' →
    ∃ key d older front s back, ofHistory caseSensitive key history = ⟨d :: older, true⟩ ∧
      s.sameSignature d = true ∧ table.stored key = front ++ s :: back ∧
      ∀ key', table'.stored key' =
        if key' = key then front ++ s.extend text :: back else table.stored key'
  selects : ∀ {σ : Type} (eval : Text → StateM σ (Option Float)) (expandArg : Text → ExpandM σ Text)
    (key : Text) (args : List Text) (state : σ),
    MacroTable.Selects eval expandArg args (Precedes (ofHistory caseSensitive key history).entries)
      (table.stored key) state (MacroTable.select eval expandArg (table.stored key)
        (some args) state)

/-- **The macro table refines its history.**  After any sequence of operations the table is what the
sequence says. -/
theorem MacroHistory.refines_ofHistory (caseSensitive : Bool) (history : List MacroOperation) :
    Refines caseSensitive history (MacroTable.ofHistory caseSensitive history) := by
  have h := tracks_ofHistory caseSensitive history
  -- what has been appended to has an open log
  have hopen : ∀ {text table'}, (MacroTable.ofHistory caseSensitive history).append
      text = .ok table' → ∃ key, (ofHistory caseSensitive key history).isOpen = true := by
    intro text table' happend
    by_contra hnone
    obtain ⟨e, herror⟩ := h.append_of_closed
      (fun key => Bool.eq_false_iff.2 fun hopen => hnone ⟨key, hopen⟩) text
    cases happend.symm.trans herror
  constructor
  case lists => exact h.lists
  case append_iff =>
    intro text
    constructor
    · rintro ⟨table', happend⟩
      exact hopen happend
    · rintro ⟨key, hkey⟩
      obtain ⟨d, older, front, s, back, r, -, -, -, -, happend⟩ := h.append_of_isOpen hkey text
      exact ⟨_, happend⟩
  case append_changes =>
    intro text table' hok
    obtain ⟨key, hkey⟩ := hopen hok
    obtain ⟨d, older, front, s, back, r, hlog, -, hs, hstored, happend⟩ :=
      h.append_of_isOpen hkey text
    cases hok.symm.trans happend
    exact ⟨key, d, older, front, s, back, hlog, Replacement.sameSignature_iff.2 hs, hstored,
      fun key' => stored_put _ key key' _ _⟩
  case selects =>
    intro σ eval expandArg key args state
    exact select_selects (h.lists key).ordered state

/-- Two definitions of one name, spelled differently.  The second is continued. -/
def shifts : List MacroOperation :=
  [.define "shift".toList ⟨some [.wildcard "r".toList], "rl r".toList⟩,
    .define "SHIFT".toList ⟨some [.text "a".toList], "rla".toList⟩,
    .append " nop".toList]

theorem MacroHistory.refines_ofHistory_shifts :
    (∃ table, (MacroTable.ofHistory false shifts).append " ret".toList = .ok table) ∧
    ⟨some [.text "a".toList], "rla nop".toList⟩ ∈
      (MacroTable.ofHistory false shifts).stored "shift".toList := by
  have h := MacroHistory.refines_ofHistory false shifts
  constructor
  · exact (h.append_iff _).2 ⟨"shift".toList, by decide⟩
  · exact ((h.lists _).mem_iff _).2 ⟨[], [⟨some [.wildcard "r".toList], "rl r".toList⟩], by decide,
      List.forall_mem_nil _⟩

end MacroAssembler
