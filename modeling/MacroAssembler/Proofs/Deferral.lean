import MacroAssembler.Proofs.AddressLabels
import MacroAssembler.Proofs.Denotation

/-!
# Names that wait for the end of the pass

Two kinds of names are not looked up where they are written.  A name to export may be defined
further down, and so may a name whose value is taken from the pass before; the label it belongs to
is looked for when the pass has come to its end.  By then the source may be in another module, and
names may be seen in another way: `.localprefix`, `.local` and `.global` say which of them are
local.

The module is remembered with such a name, the rest of its scope is not.  So at the end of the pass
the name is looked up from the module it was written in, but with the mark and the mode that are in
force at the end (`settles_deferrals`).  For a path of several parts that makes no difference.  For
a name without a path it does as soon as the name is local at one of the two places and not at the
other, unless the look-up among the local names comes to the same as the one among the global names.
-/

namespace MacroAssembler

open Relation

/-- A name whose label is looked for at the end of the pass. -/
structure Deferral where
  name : Text
  /-- How names are seen by the statement that wrote it. -/
  scope : Scope
  /-- The line that uses the label, or nothing if the label is to be exported. -/
  use : Option Location

/-- The name that a step puts off. -/
def Event.deferral? : Event → Option Deferral
  | .exported name scope => some ⟨name, scope, none⟩
  | .awaited name scope location => some ⟨name, scope, some location⟩
  | _ => none

namespace Deferral

/-- What is remembered of a name to export. -/
def export? (d : Deferral) : Option (Text × ModuleId) :=
  match d.use with
  | none => some (d.name, d.scope.home)
  | some _ => none

/-- What is remembered of a name that is used. -/
def reference? (d : Deferral) : Option PendingReference :=
  d.use.map fun location => ⟨d.name, d.scope.home, location⟩

/-- Whether one of the names to export is given a label is told by what is remembered of them. -/
theorem any_export? (p : Text → ModuleId → Bool) (ds : List Deferral) :
    ((ds.filterMap export?).any fun entry => p entry.1 entry.2) =
      ((ds.filter fun d => p d.name d.scope.home).map use).contains none := by
  induction ds with
  | nil => rfl
  | cons d ds ih =>
    obtain ⟨name, scope, use⟩ := d
    cases use <;> by_cases hp : p name scope.home = true <;>
      simp_all [List.filterMap_cons, export?]

/-- The uses that are given a label are told by what is remembered of them. -/
theorem filter_reference? (p : Text → ModuleId → Bool) (ds : List Deferral) :
    ((ds.filterMap reference?).filter fun ref => p ref.name ref.home).map
      PendingReference.location =
      ((ds.filter fun d => p d.name d.scope.home).map use).filterMap id := by
  induction ds with
  | nil => rfl
  | cons d ds ih =>
    obtain ⟨name, scope, use⟩ := d
    cases use <;> by_cases hp : p name scope.home = true <;>
      simp_all [List.filterMap_cons, reference?]

end Deferral

namespace State

variable (st : State)

/-- The names that have been put off so far, the oldest first. -/
def deferrals : List Deferral :=
  st.history.reverse.filterMap Event.deferral?

/-- The label that a name is given when it is looked up from its module, but otherwise as seen
here. -/
def settled (d : Deferral) : Option LabelId :=
  st.symbols.resolve d.name (st.scopeAt d.scope.home)

/-- The label that a name denotes for the statement that wrote it. -/
def meant (d : Deferral) : Option LabelId :=
  st.symbols.resolve d.name d.scope

/-- What the names that are given a label have it for. -/
def usesOf (id : LabelId) : List (Option Location) :=
  (st.deferrals.filter fun d => st.settled d == some id).map Deferral.use

end State

/-- A label with the uses of it that had to wait. -/
def Label.settle (label : Label) (uses : List (Option Location)) : Label :=
  { label with
    isExported := label.isExported || uses.contains none
    references := label.references ++ (uses.filterMap id).toArray }

/-! ## In the course of the pass -/

theorem State.deferrals_of_history {st st' : State} (h : st'.history = st.history) :
    st'.deferrals = st.deferrals := by
  rw [deferrals, deferrals, h]

theorem State.deferrals_of_cons {st st' : State} {event : Event}
    (h : st'.history = event :: st.history) :
    st'.deferrals = st.deferrals ++ event.deferral?.toList := by
  rw [deferrals, deferrals, h, List.reverse_cons, List.filterMap_append]
  cases hevent : event.deferral? with
  | none => simp [hevent]
  | some d => simp [hevent]

theorem State.deferrals_record (st : State) (event : Event) :
    (st.record event).deferrals = st.deferrals ++ event.deferral?.toList :=
  deferrals_of_cons rfl

/-- The names are remembered in the order in which they were put off, each with its module. -/
structure State.Remembers (st : State) : Prop where
  exports_eq : st.exports = st.deferrals.filterMap Deferral.export?
  references_eq : st.pendingReferences.toList = st.deferrals.filterMap Deferral.reference?

theorem State.remembers_initial (settings : Settings) (store : SourceStore)
    (diagnostics : Diagnostics) : (State.initial settings store diagnostics).Remembers :=
  ⟨rfl, rfl⟩

/-- What puts no name off forgets none. -/
theorem State.Remembers.of_eq {st st' : State} (h : st.Remembers)
    (hexports : st'.exports = st.exports) (hpending : st'.pendingReferences = st.pendingReferences)
    (hdeferrals : st'.deferrals = st.deferrals) : st'.Remembers where
  exports_eq := by rw [hexports, hdeferrals, h.exports_eq]
  references_eq := by rw [hpending, hdeferrals, h.references_eq]

section Course

variable {stage : Stage} {failing : Prop} {st st' : State}

theorem Act.remembers (hact : Act stage failing st st') (h : st.Remembers) : st'.Remembers := by
  cases hact with
  | control htracked =>
    exact h.of_eq (congrArg Tracked.exports htracked) (congrArg Tracked.pendingReferences htracked)
      (State.deferrals_of_history (congrArg Tracked.history htracked))
  | exported name =>
    let after : State :=
      { st with exports := st.exports ++ [(name, st.home)] }.record (.exported name st.scope)
    have hdeferrals : after.deferrals = st.deferrals ++ [⟨name, st.scope, none⟩] :=
      State.deferrals_record _ _
    constructor
    · rw [hdeferrals, List.filterMap_append, ← h.exports_eq]
      rfl
    · rw [hdeferrals, List.filterMap_append, ← h.references_eq]
      exact (List.append_nil _).symm
  | awaited name location =>
    let pending := st.pendingReferences.push ⟨name, st.home, location⟩
    let after : State :=
      { st with pendingReferences := pending }.record (.awaited name st.scope location)
    have hdeferrals : after.deferrals = st.deferrals ++ [⟨name, st.scope, some location⟩] :=
      State.deferrals_record _ _
    constructor
    · rw [hdeferrals, List.filterMap_append, ← h.exports_eq]
      exact (List.append_nil _).symm
    · rw [hdeferrals, List.filterMap_append, ← h.references_eq]
      exact Array.toList_push
  | recalled | anticipated | assigned | labelled | reached | drawn =>
    exact h.of_eq rfl rfl ((State.deferrals_of_cons rfl).trans (List.append_nil _))
  | _ => exact h.of_eq rfl rfl rfl

theorem Change.remembers (hchange : Change stage failing st st') (h : st.Remembers) :
    st'.Remembers := by
  cases hchange with
  | act hact => exact hact.remembers h
  | spliced | matched | encoded | entered | left | skipped | passedHead | passedEnd =>
    exact h.of_eq rfl rfl ((State.deferrals_of_cons rfl).trans (List.append_nil _))
  | _ => exact h.of_eq rfl rfl rfl

/-- A name is put off with the scope of the moment. -/
theorem scope_of_deferral {start : State} (hsteps : ReflTransGen (Change stage failing) start st)
    (hstart : start.history = []) {d : Deferral} (hd : d ∈ st.deferrals) :
    ∃ s, ReflTransGen (Change stage failing) start s ∧ ReflTransGen (Change stage failing) s st ∧
      d.scope = s.scope := by
  induction hsteps with
  | refl =>
    rw [State.deferrals, hstart] at hd
    cases hd
  | @tail s s' hsteps hlast ih =>
    have hold : d ∈ s.deferrals → ∃ s₁, ReflTransGen (Change stage failing) start s₁ ∧
        ReflTransGen (Change stage failing) s₁ s' ∧ d.scope = s₁.scope := by
      intro hd
      obtain ⟨s₁, hbefore, hafter, hscope⟩ := ih hd
      exact ⟨s₁, hbefore, hafter.tail hlast, hscope⟩
    rcases hlast.history_eq with hsame | ⟨event, hnew, hjustified⟩
    · rw [State.deferrals_of_history hsame] at hd
      exact hold hd
    · rw [State.deferrals_of_cons hnew, List.mem_append, Option.mem_toList] at hd
      rcases hd with hd | hd
      · exact hold hd
      · refine ⟨s, hsteps, .single hlast, ?_⟩
        cases event with
        | exported name scope =>
          cases hd
          exact hjustified
        | awaited name scope location =>
          cases hd
          exact hjustified
        | _ => cases hd

end Course

/-! ## At the end of the pass -/

namespace Symbols

/-- What a name denotes is told by the modules. -/
theorem resolve_congr {t t' : Symbols} (hmodules : t'.modules = t.modules)
    (hcase : t'.caseSensitive = t.caseSensitive) : t'.resolve = t.resolve := by
  have hmodule : t'.moduleAt = t.moduleAt := by
    ext m : 1
    rw [moduleAt, moduleAt, hmodules]
  have hchild : t'.child? = t.child? := by
    ext m name : 2
    rw [child?, child?, hmodule, key_congr hcase]
  have hlabel : t'.labelIn? = t.labelIn? := by
    ext m name : 2
    rw [labelIn?, labelIn?, hmodule, key_congr hcase]
  have hancestors : t'.ancestors = t.ancestors :=
    ancestors_congr fun m => by rw [hmodule]
  have hfind : t'.findModule? = t.findModule? := by
    ext m path : 2
    simp only [findModule?, searchChain, walk?, hchild, hancestors]
  ext name scope : 2
  simp only [resolve, importedModules, searchChain, walk?, hmodule, hchild, hlabel,
    hancestors, hfind]

end Symbols

/-- Labels have been given their uses, and something may have been reported. -/
def Settling (st st' : State) : Prop :=
  ∃ labels diagnostics location, st' = { st with
    symbols := { st.symbols with labels := labels }, diagnostics :=
      diagnostics, location := location }

namespace Settling

variable {st st' st'' : State}

theorem trans (h : Settling st st') (h' : Settling st' st'') : Settling st st'' := by
  obtain ⟨labels, diagnostics, location, rfl⟩ := h
  obtain ⟨labels', diagnostics', location', rfl⟩ := h'
  exact ⟨labels', diagnostics', location', rfl⟩

theorem resolve_eq (h : Settling st st') : st'.symbols.resolve = st.symbols.resolve := by
  obtain ⟨labels, diagnostics, location, rfl⟩ := h
  exact Symbols.resolve_congr rfl rfl

theorem scopeAt_eq (h : Settling st st') : st'.scopeAt = st.scopeAt := by
  obtain ⟨labels, diagnostics, location, rfl⟩ := h
  rfl

theorem deferrals_eq (h : Settling st st') : st'.deferrals = st.deferrals := by
  obtain ⟨labels, diagnostics, location, rfl⟩ := h
  rfl

theorem settled_eq (h : Settling st st') : st'.settled = st.settled := by
  ext d : 1
  rw [State.settled, State.settled, h.resolve_eq, h.scopeAt_eq]

theorem usesOf_eq (h : Settling st st') : st'.usesOf = st.usesOf := by
  ext id : 1
  rw [State.usesOf, State.usesOf, h.deferrals_eq, h.settled_eq]

end Settling

namespace PassM

variable (stage : Stage)

/-- One name to export marks the label that it denotes. -/
theorem settleExport_settles (name : Text) (home : ModuleId) (st : State) :
    ∃ st', settleExport name home stage st = .ok () st' ∧ Settling st st' ∧
      ∀ id, st'.symbols.label? id = (st.symbols.label? id).map fun label => { label with
        isExported := label.isExported ||
          st.symbols.resolve name (st.scopeAt home) == some id } := by
  rw [settleExport, PassM.get_bind_apply]
  cases st.symbols.resolve name (st.scopeAt home) with
  | none =>
    refine ⟨_, rfl, ⟨st.symbols.labels, _, st.location, rfl⟩, fun id => ?_⟩
    show st.symbols.label? id = _
    cases st.symbols.label? id <;> simp
  | some found =>
    refine ⟨_, rfl, ⟨_, st.diagnostics, st.location, rfl⟩, fun id => ?_⟩
    rw [Symbols.label?_modifyLabel]
    by_cases hid : found = id
    · cases st.symbols.label? id <;> simp [hid]
    · have hne : (found == id) = false := beq_eq_false_iff_ne.2 hid
      cases st.symbols.label? id <;> simp [hid, hne]

/-- The labels that the names denote are marked, and no others. -/
theorem forM_settleExport (entries : List (Text × ModuleId)) (st : State) :
    ∃ st', entries.forM (fun entry => settleExport entry.1 entry.2) stage st = .ok () st' ∧
      Settling st st' ∧
      ∀ id, st'.symbols.label? id = (st.symbols.label? id).map fun label => { label with
        isExported := label.isExported ||
          entries.any fun entry => st.symbols.resolve entry.1
            (st.scopeAt entry.2) == some id } := by
  induction entries generalizing st with
  | nil =>
    refine ⟨st, rfl, ⟨st.symbols.labels, st.diagnostics, st.location, rfl⟩, fun id => ?_⟩
    cases st.symbols.label? id <;> simp
  | cons entry entries ih =>
    obtain ⟨st₁, hfirst, hsettling, hlabel⟩ := settleExport_settles stage entry.1 entry.2 st
    obtain ⟨st₂, hrest, hsettling', hlabel'⟩ := ih st₁
    refine ⟨st₂, ?_, hsettling.trans hsettling', fun id => ?_⟩
    · show (settleExport entry.1 entry.2 >>= fun _ =>
        entries.forM fun entry => settleExport entry.1 entry.2) stage st = _
      rw [PassM.bind_of_ok hfirst]
      exact hrest
    · rw [hlabel', hlabel, Option.map_map, hsettling.resolve_eq, hsettling.scopeAt_eq]
      cases st.symbols.label? id <;> simp [Bool.or_assoc]

/-- The tree in which a use is noted with the label that its name denotes. -/
def noteUse (scopeAt : ModuleId → Scope) (t : Symbols) (ref : PendingReference) : Symbols :=
  match t.resolve ref.name (scopeAt ref.home) with
  | some id => t.modifyLabel id fun label =>
      { label with references := label.references.push ref.location }
  | none => t

theorem noteUse_eq (scopeAt : ModuleId → Scope) (t : Symbols) (ref : PendingReference) :
    ∃ labels, noteUse scopeAt t ref = { t with labels := labels } := by
  unfold noteUse
  split
  · exact ⟨_, rfl⟩
  · exact ⟨t.labels, rfl⟩

theorem label?_noteUse (scopeAt : ModuleId → Scope) (t : Symbols) (ref : PendingReference)
    (id : LabelId) : (noteUse scopeAt t ref).label? id = (t.label? id).map fun label => { label with
      references := label.references ++
        if t.resolve ref.name (scopeAt ref.home) == some id then #[ref.location] else #[] } := by
  unfold noteUse
  cases t.resolve ref.name (scopeAt ref.home) with
  | none => cases t.label? id <;> simp
  | some found =>
    dsimp only
    rw [Symbols.label?_modifyLabel]
    by_cases hid : found = id
    · cases t.label? id <;> simp [hid]
    · cases t.label? id <;> simp [hid]

/-- The uses are noted with the labels that their names denote, in the order in which they were
made. -/
theorem foldl_noteUse (scopeAt : ModuleId → Scope) (refs : List PendingReference) (t : Symbols) :
    (∃ labels, refs.foldl (noteUse scopeAt) t = { t with labels := labels }) ∧
      ∀ id, (refs.foldl (noteUse scopeAt) t).label? id = (t.label? id).map fun label => { label with
        references := label.references ++ ((refs.filter fun ref =>
          t.resolve ref.name (scopeAt ref.home) == some id).map
            PendingReference.location).toArray } := by
  induction refs generalizing t with
  | nil =>
    refine ⟨⟨t.labels, rfl⟩, fun id => ?_⟩
    rw [List.foldl_nil]
    cases t.label? id <;> simp
  | cons ref refs ih =>
    obtain ⟨labels, hnote⟩ := noteUse_eq scopeAt t ref
    have hresolve : (noteUse scopeAt t ref).resolve = t.resolve := by
      rw [hnote]
      exact Symbols.resolve_congr rfl rfl
    obtain ⟨⟨labels', hrest⟩, hlabel⟩ := ih (noteUse scopeAt t ref)
    refine ⟨⟨labels', ?_⟩, fun id => ?_⟩
    · rw [List.foldl_cons, hrest, hnote]
    · rw [List.foldl_cons, hlabel, label?_noteUse, hresolve, Option.map_map]
      cases t.label? id with
      | none => rfl
      | some label =>
        by_cases hfound : t.resolve ref.name (scopeAt ref.home) = some id
        · simp [hfound]
        · simp [hfound]

theorem settleReferences_settles (st : State) :
    ∃ st', settleReferences stage st = .ok () st' ∧ Settling st st' ∧
      ∀ id, st'.symbols.label? id = (st.symbols.label? id).map fun label => { label with
        references := label.references ++ ((st.pendingReferences.toList.filter fun ref =>
          st.symbols.resolve ref.name (st.scopeAt ref.home) == some id).map
            PendingReference.location).toArray } := by
  obtain ⟨⟨labels, heq⟩, hlabel⟩ :=
    foldl_noteUse st.scopeAt st.pendingReferences.toList st.symbols
  refine ⟨_, rfl, ⟨labels, st.diagnostics, st.location, ?_⟩, ?_⟩
  · rw [← heq, Array.foldl_toList]
    rfl
  · rw [Array.foldl_toList] at hlabel
    exact hlabel

/-- What the source left open is reported, and nothing else happens. -/
theorem exists_reportOpen (st : State) : ∃ diagnostics, reportOpen stage st =
    .ok () { st with location := none, diagnostics := diagnostics } := by
  have hmodify : (modify fun st : State => { st with location := none } : PassM PUnit) stage st =
      .ok ⟨⟩ { st with location := none } := rfl
  rw [reportOpen, PassM.bind_of_ok hmodify, PassM.get_bind_apply]
  dsimp only
  split <;> split <;> split <;> exact ⟨_, rfl⟩

/-- **At the end of the pass**, every label gets the uses that are settled to it, and nothing else
happens to the labels. -/
theorem settle_settles (hkind : stage.kind = .assemble) {st : State} (hst : st.Remembers) :
    ∃ st', settle stage st = .ok () st' ∧ Settling st st' ∧
      ∀ id, st'.symbols.label? id = (st.symbols.label? id).map (·.settle (st.usesOf id)) := by
  obtain ⟨diagnostics, hopen⟩ := exists_reportOpen stage st
  let st₁ : State := { st with location := none, diagnostics := diagnostics }
  have hfirst : Settling st st₁ := ⟨st.symbols.labels, diagnostics, none, rfl⟩
  obtain ⟨st₂, hexports, hsecond, hlabel₂⟩ := forM_settleExport stage st.exports st₁
  obtain ⟨st₃, hreferences, hthird, hlabel₃⟩ := settleReferences_settles stage st₂
  refine ⟨st₃, ?_, hfirst.trans (hsecond.trans hthird), fun id => ?_⟩
  · rw [settle, PassM.bind_of_ok hopen, PassM.read_bind_apply, hkind]
    exact (PassM.bind_of_ok hexports).trans hreferences
  · have hexported : (st.exports.any fun entry =>
        st₁.symbols.resolve entry.1 (st₁.scopeAt entry.2) == some id) =
          (st.usesOf id).contains none := by
      rw [hst.exports_eq]
      exact Deferral.any_export?
        (fun name home => st.symbols.resolve name (st.scopeAt home) == some id) st.deferrals
    have hused : ((st.pendingReferences.toList.filter fun ref =>
        st.symbols.resolve ref.name (st.scopeAt ref.home) == some id).map
          PendingReference.location) = (st.usesOf id).filterMap (·) := by
      rw [hst.references_eq]
      exact Deferral.filter_reference?
        (fun name home => st.symbols.resolve name (st.scopeAt home) == some id) st.deferrals
    have hpending : st₂.pendingReferences = st.pendingReferences := by
      obtain ⟨labels, diagnostics', location, rfl⟩ := hsecond
      rfl
    have hlater := hfirst.trans hsecond
    rw [hlabel₃, hlabel₂, Option.map_map, hpending, hlater.resolve_eq, hlater.scopeAt_eq, hused,
      hexported]
    rfl

end PassM

/-! ## Which names are settled as they are meant -/

theorem Text.two_le_length_splitOn {sep : Char} {text : Text} (h : sep ∈ text) :
    2 ≤ (Text.splitOn sep text).length := by
  obtain ⟨front, back, rfl⟩ := List.append_of_mem h
  rw [splitOn_eq, List.splitOn_append_cons_self, List.length_append]
  have hfront := List.length_pos_iff.2 (List.splitOn_ne_nil sep front)
  have hback := List.length_pos_iff.2 (List.splitOn_ne_nil sep back)
  omega

theorem LabelPath.modules_ne_nil_of_dotted {name : Text} (hname : '.' ∈ name) :
    (LabelPath.ofName name).start = none → (LabelPath.ofName name).modules ≠ [] := by
  have hlength := Text.two_le_length_splitOn hname
  rw [LabelPath.ofName]
  cases hfront : (Text.splitOn '.' name).dropLast with
  | nil =>
    have hfew := congrArg List.length hfront
    rw [List.length_dropLast, List.length_nil] at hfew
    omega
  | cons first more =>
    dsimp only
    split
    · intro h
      cases h
    · intro _
      exact List.cons_ne_nil first more

namespace Symbols

/-- The label that a local name without a path denotes, seen from a module. -/
def localLabel? (t : Symbols) (home : ModuleId) (name : Text) : Option LabelId :=
  t.labelIn? home name <|> (t.importedModules home).findSome? (t.labelIn? · name)
    <|> t.labelIn? global name

theorem resolve_undotted (t : Symbols) {name : Text} (hname : '.' ∉ name) (scope : Scope) :
    t.resolve name scope =
      if scope.isLocal name then t.localLabel? scope.home name else t.labelIn? global name := by
  rw [resolve, LabelPath.ofName_of_undotted hname]
  rfl

/-- A path of several parts is looked up without a look at what is local. -/
theorem resolve_dotted (t : Symbols) {name : Text} (hname : '.' ∈ name) {scope scope' : Scope}
    (hhome : scope.home = scope'.home) : t.resolve name scope = t.resolve name scope' := by
  have hmodules := LabelPath.modules_ne_nil_of_dotted hname
  rw [resolve, resolve, hhome]
  generalize LabelPath.ofName name = path at hmodules ⊢
  obtain ⟨start, modules, leaf⟩ := path
  cases start with
  | some start => rfl
  | none =>
    cases modules with
    | nil => exact absurd rfl (hmodules rfl)
    | cons first more => rfl

end Symbols

/-- A name is settled as it is meant, unless it is local at one place and not at the other and that
makes a difference. -/
theorem State.settled_eq_meant_iff (st : State) (d : Deferral) :
    st.settled d = st.meant d ↔
      ('.' ∉ d.name → st.scope.isLocal d.name ≠ d.scope.isLocal d.name →
        st.symbols.localLabel? d.scope.home d.name =
          st.symbols.labelIn? Symbols.global d.name) := by
  by_cases hdotted : '.' ∈ d.name
  · have hsame : st.settled d = st.meant d := st.symbols.resolve_dotted hdotted rfl
    exact ⟨fun _ h => absurd hdotted h, fun _ => hsame⟩
  · have hlocal : (st.scopeAt d.scope.home).isLocal d.name = st.scope.isLocal d.name := rfl
    rw [State.settled, State.meant, st.symbols.resolve_undotted hdotted,
      st.symbols.resolve_undotted hdotted, hlocal]
    cases st.scope.isLocal d.name <;> cases d.scope.isLocal d.name <;>
      simp [hdotted, State.scopeAt, eq_comm]

namespace PassM

/-- **A deferred name keeps its module, and nothing else of its scope.**  Every name that the
assembling pass puts off is noted with the scope in force at that moment.  At the end of the pass
every label gets the export and the uses of the names that denote it from their own modules with the
mark and the mode of the end of the pass, and no others.  That is the label that a name denotes in
its own scope exactly if it is a path of several parts, or is local at both places or at none, or
denotes the same as a local and as a global name.  When all are settled, they are forgotten. -/
theorem settles_deferrals {stage : Stage} (hkind : stage.kind = .assemble) {settings : Settings}
    {store : SourceStore} {diagnostics : Diagnostics} {main : Nat} {st : State}
    (hrun : runSource main stage (State.initial settings store diagnostics) = .ok () st) :
    (∃ last, st = last.cleared .assemble ∧ ∀ d ∈ st.deferrals, ∃ s,
      ReflTransGen (Change stage True) (State.initial settings store diagnostics) s ∧
        ReflTransGen (Change stage True) s last ∧ d.scope = s.scope) ∧
    (∃ stopped before,
      runFile maxIncludes main stage (State.initial settings store diagnostics) =
        .ok stopped before ∧
        ∀ id, st.symbols.label? id = (before.symbols.label? id).map (·.settle (st.usesOf id))) ∧
    ∀ d ∈ st.deferrals, (st.settled d = st.meant d ↔
      ('.' ∉ d.name → st.scope.isLocal d.name ≠ d.scope.isLocal d.name →
        st.symbols.localLabel? d.scope.home d.name =
          st.symbols.labelIn? Symbols.global d.name)) := by
  obtain ⟨last, hlast, hst⟩ := exists_settleSource hrun
  rw [hkind] at hst
  subst hst
  refine ⟨⟨last, rfl, fun d hd => ?_⟩, ?_, fun d _ => State.settled_eq_meant_iff _ d⟩
  · exact scope_of_deferral (Assembler.steps_of_settleSource hlast) rfl hd
  · obtain ⟨stopped, before, hfile, hsettle⟩ := bind_eq_ok hlast
    have hsteps : ReflTransGen (Change stage True) (State.initial settings store diagnostics)
        before := by
      have h : LeadsFrom (Change stage True) (State.initial settings store diagnostics)
          (runFile maxIncludes main stage) := (runFile_advances maxIncludes main).performs _
      rwa [LeadsFrom, stateAfter_of_ok hfile] at h
    have hremembers : before.Remembers :=
      keeps_of_steps (fun _ _ hchange h => hchange.remembers h) hsteps
        (State.remembers_initial settings store diagnostics)
    obtain ⟨st', hsettle', hsettling, hlabel⟩ := settle_settles stage hkind hremembers
    have hend : settle stage before = .ok () last := hsettle
    rw [hsettle'] at hend
    cases hend
    refine ⟨stopped, before, hfile, fun id => (hlabel id).trans ?_⟩
    rw [← hsettling.usesOf_eq]
    rfl

end PassM

namespace Assembler

/-- A program in which a global name is exported and a path used where all names are local. -/
def outwardRegion : Assembler :=
  ofSource ("x: .db 1\n .module m\n .local\n .export x\n .dw m.y\ny: .db 3\n" ++
    " .endmodule\n .global\n")

/-- Whether a name is settled as it is meant, by what the look-ups of it have in common. -/
def keepsMeaning (st : State) (d : Deferral) : Bool :=
  d.name.contains '.' || st.scope.isLocal d.name == d.scope.isLocal d.name ||
    st.symbols.localLabel? d.scope.home d.name == st.symbols.labelIn? Symbols.global d.name

/-- Names are not local any more at the end, but these two do not depend on that. -/
theorem settles_deferrals_outwardRegion : ∃ output a',
    assemble "main".toList outwardRegion = .ok output a' ∧
      ∃ p : Passes outwardRegion "main".toList, p.Yields output ∧ p.assembling.kind = .assemble ∧
        p.done.deferrals.length = 2 ∧ ∀ d ∈ p.done.deferrals, p.done.settled d =
          p.done.meant d := by
  obtain ⟨output, a', h, p, hp, htest⟩ := exists_of_assemblesBy
    (show outwardRegion.assemblesBy (fun p => p.done.deferrals.length == 2 &&
      p.done.deferrals.all (keepsMeaning p.done)) = true by decide +kernel)
  rw [Bool.and_eq_true, List.all_eq_true] at htest
  obtain ⟨hlength, hall⟩ := htest
  refine ⟨output, a', h, p, hp, rfl, eq_of_beq hlength, fun d hd => ?_⟩
  have hiff :=
    (PassM.settles_deferrals (show p.assembling.kind = .assemble from rfl)
      (PassM.runSource_of_settleSource hp.done_eq)).2.2
  refine (hiff d hd).2 fun hdot hlocal => ?_
  have hmeaning := hall d hd
  simp only [keepsMeaning, Bool.or_eq_true, List.contains_iff_mem, beq_iff_eq] at hmeaning
  rcases hmeaning with (hmem | hsame) | hsame
  · exact absurd hmem hdot
  · exact absurd hsame hlocal
  · exact hsame

/-- A program in which a name is exported and another one used where all names are local, which they
are not any more at the end. -/
def localRegion : Assembler :=
  ofSource ("x: .db 1\n .module m\n .local\n .export x\n .dw y\nx: .db 2\ny: .db 3\n" ++
    " .endmodule\n .global\n")

/-- What the names of the assembling pass are settled to, and what they are meant for. -/
def Passes.outcomes {a : Assembler} {path : Text} (p : Passes a path) :
    List (Option LabelId × Option LabelId) :=
  p.done.deferrals.map fun d => (p.done.settled d, p.done.meant d)

/-- The export goes to the label `x` outside of the module, and the use of `y` is lost. -/
theorem deferrals_missettled_localRegion : ∃ output a',
    assemble "main".toList localRegion = .ok output a' ∧
      ∃ p : Passes localRegion "main".toList, p.Yields output ∧
        p.outcomes = [(some 0, some 1), (none, some 2)] := by
  obtain ⟨output, a', h, p, hp, htest⟩ := exists_of_assemblesBy
    (show localRegion.assemblesBy (fun p => p.outcomes == [(some 0, some 1), (none, some 2)]) =
      true by decide +kernel)
  exact ⟨output, a', h, p, hp, eq_of_beq htest⟩

end Assembler

end MacroAssembler
