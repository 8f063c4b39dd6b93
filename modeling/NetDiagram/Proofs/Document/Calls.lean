import NetDiagram.Proofs.Document.View
import NetDiagram.Proofs.Numeric.Rounding

/-!
# Calls of an export

An export makes its queries and its checks in one fixed order, and the first of
them that fails ends it. Nothing but the answers to the calls that were made
decides its outcome, so queries behind the first failure and queries that are in
no call may fail as they like.
-/

namespace NetDiagram

/-! ## Questions and calls -/

inductive Question (P : Type)
  | knownPrefixes
  | prefixString (key : P)
  | internalRouters
  | externalRouters
  | routerPosition (router : RouterId)
  | routerName (router : RouterId)
  | edges
  | nextHops (key : P) (router : RouterId)
  | sessions
  | propagations (key : P)

abbrev Question.Answer {P : Type} : Question P → Type
  | .knownPrefixes => List P
  | .prefixString _ => Text
  | .internalRouters | .externalRouters | .nextHops _ _ => List RouterId
  | .routerPosition _ => Option Position
  | .routerName _ => Option Text
  | .edges => List Edge
  | .sessions => List Session
  | .propagations _ => List Propagation

inductive Call (P : Type)
  | ask (question : Question P)
  | collisionCheck (texts : List Text)
  | sessionKind (name : Text)

namespace Model

section
variable {P : Type} (model : Model P)

def answer : (q : Question P) → Query q.Answer
  | .knownPrefixes => model.knownPrefixes
  | .prefixString key => model.prefixString key
  | .internalRouters => model.internalRouters
  | .externalRouters => model.externalRouters
  | .routerPosition router => model.routerPosition router
  | .routerName router => model.routerName router
  | .edges => model.edges
  | .nextHops key router => model.nextHops key router
  | .sessions => model.sessions
  | .propagations key => model.propagations key

def failure? (policy : CollisionPolicy) : Call P → Option ExportError
  | .ask q => (errorOf? (model.answer q)).map fun failure => .drawing (.query failure)
  | .collisionCheck texts =>
    if collisions texts ≠ [] ∧ policy = .error then some (.prefixCollision (collisions texts)) else none
  | .sessionKind name =>
    if SessionKind.ofName? name = none then some (.drawing (.unknownSessionKind name)) else none

/-! ## The order of the calls -/

/-- The elements of the answer, and none where there is no answer: then no call depends on them. -/
def answered {α : Type} (query : Query (List α)) : List α :=
  query.toOption.getD []

def textOf (key : P) : Text :=
  (model.prefixString key).toOption.getD ""

def prefixCalls : List (Call P) :=
  .ask .knownPrefixes :: (answered model.knownPrefixes).map fun key => .ask (.prefixString key)

def routerCalls (routers : List RouterId) : List (Call P) :=
  routers.flatMap fun router => [.ask (.routerPosition router), .ask (.routerName router)]

def internalCalls : List (Call P) :=
  .ask .internalRouters :: routerCalls (answered model.internalRouters)

def externalCalls : List (Call P) :=
  .ask .externalRouters :: routerCalls (answered model.externalRouters)

/-- For each prefix the internal routers are asked for again. -/
def hopCalls (key : P) : List (Call P) :=
  .ask .internalRouters :: (answered model.internalRouters).map fun router => .ask (.nextHops key router)

def sessionCalls : List (Call P) :=
  .ask .sessions :: (answered model.sessions).map fun s => .sessionKind s.kind

def pictureCalls (keys : List P) : List (Call P) :=
  model.internalCalls ++ (model.externalCalls ++ (.ask .edges :: (keys.flatMap model.hopCalls ++
    (.ask .edges :: (model.sessionCalls ++ keys.map fun key => .ask (.propagations key))))))

def calls : List (Call P) :=
  let keys := answered model.knownPrefixes
  model.prefixCalls ++ (.collisionCheck (keys.map model.textOf) :: model.pictureCalls keys)

/-- The calls up to the first that fails. -/
def performed (policy : CollisionPolicy) : List (Call P) → List (Call P)
  | [] => []
  | call :: calls => call :: if model.failure? policy call = none then performed policy calls else []

end

def SameAnswer {P : Type} (model other : Model P) : Call P → Prop
  | .ask q => other.answer q = model.answer q
  | .collisionCheck _ | .sessionKind _ => True

end Model

/-! ## Computations that follow their calls -/

section
variable {P ε α β : Type} {model : Model P} {policy : CollisionPolicy}

theorem performed_append_none {cs ds : List (Call P)} (h : ∀ call ∈ cs, model.failure? policy call = none) :
    model.performed policy (cs ++ ds) = cs ++ model.performed policy ds := by
  induction cs with
  | nil => rfl
  | cons c cs ih =>
    rw [List.forall_mem_cons] at h
    rw [List.cons_append, Model.performed, if_pos h.1, ih h.2, List.cons_append]

/-- Calls behind do not change which of the calls in front are made. -/
theorem mem_performed_append {cs ds : List (Call P)} {call : Call P} (h : call ∈ model.performed policy cs) :
    call ∈ model.performed policy (cs ++ ds) := by
  induction cs with
  | nil => cases h
  | cons c cs ih =>
    rw [Model.performed] at h
    rw [List.cons_append, Model.performed]
    rcases List.mem_cons.mp h with rfl | h
    · exact List.mem_cons_self
    · by_cases hc : model.failure? policy c = none
      · rw [if_pos hc] at h
        rw [if_pos hc]
        exact List.mem_cons_of_mem _ (ih h)
      · rw [if_neg hc] at h
        cases h

/-- The computation fails with the first call that fails, and only the answers to the calls made decide its result. -/
structure Follows (model : Model P) (policy : CollisionPolicy) (toError : ε → ExportError)
    (run : Model P → Except ε α) (calls : List (Call P)) : Prop where
  failure : (errorOf? (run model)).map toError = calls.findSome? (model.failure? policy)
  same : ∀ other : Model P, (∀ call ∈ model.performed policy calls, model.SameAnswer other call) → run other = run model

variable {toError : ε → ExportError} {run : Model P → Except ε α} {cs ds : List (Call P)}

theorem Follows.bind {next : α → Model P → Except ε β} (h : Follows model policy toError run cs)
    (hnext : ∀ a, run model = .ok a → Follows model policy toError (next a) ds) :
    Follows model policy toError (fun m => run m >>= fun a => next a m) (cs ++ ds) := by
  have hsame : ∀ other, (∀ call ∈ model.performed policy (cs ++ ds), model.SameAnswer other call) →
      run other = run model := fun other hother =>
        h.same other fun call hcall => hother call (mem_performed_append hcall)
  cases hrun : run model with
  | error e =>
    have hfailure := h.failure
    rw [hrun] at hfailure
    refine ⟨?_, fun other hother => ?_⟩
    · rw [List.findSome?_append, ← hfailure, hrun]
      rfl
    · rw [hsame other hother, hrun]
      rfl
  | ok a =>
    have hfailure := h.failure
    rw [hrun] at hfailure
    refine ⟨?_, fun other hother => ?_⟩
    · rw [List.findSome?_append, ← hfailure, hrun]
      exact (hnext a hrun).failure
    · rw [hsame other hother, hrun]
      refine (hnext a hrun).same other fun call hcall => hother call ?_
      -- no call in front fails, so all of them are made and then those behind
      rw [performed_append_none (List.findSome?_eq_none_iff.mp hfailure.symm)]
      exact List.mem_append_right _ hcall

theorem follows_const {r : Except ε α} (h : ∃ a, r = .ok a) : Follows model policy toError (fun _ => r) [] := by
  obtain ⟨a, rfl⟩ := h
  exact ⟨rfl, fun _ _ => rfl⟩

theorem Follows.map (h : Follows model policy toError run cs) (f : α → β) :
    Follows model policy toError (fun m => run m >>= fun a => pure (f a)) cs := by
  have hbind : Follows model policy toError (fun m => run m >>= fun a => pure (f a)) (cs ++ []) :=
    h.bind fun a _ => follows_const ⟨f a, rfl⟩
  rwa [List.append_nil] at hbind

theorem follows_mapM {f : α → Model P → Except ε β} {calls : α → List (Call P)} {xs : List α}
    (h : ∀ x ∈ xs, Follows model policy toError (f x) (calls x)) :
    Follows model policy toError (fun m => xs.mapM fun x => f x m) (xs.flatMap calls) := by
  induction xs with
  | nil => exact follows_const ⟨[], rfl⟩
  | cons x xs ih =>
    rw [List.forall_mem_cons] at h
    simp only [List.mapM_cons]
    refine h.1.bind fun y _ => ?_
    exact (ih h.2).map (y :: ·)

end

/-! ## Queries and checks -/

section
variable {P : Type} {model : Model P} {policy : CollisionPolicy}

theorem follows_answer (q : Question P) :
    Follows model policy (fun failure => .drawing (.query failure)) (fun m => m.answer q) [.ask q] := by
  refine ⟨?_, fun other hother => hother (.ask q) List.mem_cons_self⟩
  rw [List.findSome?_singleton]
  rfl

theorem follows_ask (q : Question P) : Follows model policy .drawing (fun m => ask (m.answer q)) [.ask q] := by
  refine ⟨?_, fun other hother => congrArg ask ((follows_answer q).same other hother)⟩
  rw [← (follows_answer q).failure]
  cases model.answer q <;> rfl

theorem follows_label (e : Edge) : Follows model policy .drawing (fun _ => e.label) [] := by
  obtain ⟨label, hlabel⟩ := WeightLabel.exists_ofWeight? e.weight
  exact follows_const ⟨.weight e.a e.b label, by rw [Edge.label, hlabel]⟩

theorem follows_session (s : Session) : Follows model policy .drawing (fun _ => s.line) [.sessionKind s.kind] := by
  refine ⟨?_, fun _ _ => rfl⟩
  rw [List.findSome?_singleton, Model.failure?, Session.line]
  cases SessionKind.ofName? s.kind <;> rfl

/-! ## Layers -/

theorem answered_ok {α : Type} {query : Query (List α)} {xs : List α} (h : query = .ok xs) :
    Model.answered query = xs := by
  rw [h]
  rfl

/-- What follows a query for a list depends on its elements. -/
theorem follows_elements {ε α β : Type} {toError : ε → ExportError} {q : Model P → Except ε (List α)}
    {query : Query (List α)} {c : Call P} (h : Follows model policy toError q [c])
    (hquery : ∀ xs, q model = .ok xs → query = .ok xs) {next : List α → Model P → Except ε β}
    {calls : List α → List (Call P)} (hnext : ∀ xs, Follows model policy toError (next xs) (calls xs)) :
    Follows model policy toError (fun m => q m >>= fun xs => next xs m) (c :: calls (Model.answered query)) := by
  refine h.bind fun xs hxs => ?_
  rw [answered_ok (hquery xs hxs)]
  exact hnext xs

theorem follows_node (style : NodeStyle) (router : RouterId) :
    Follows model policy .drawing (fun m => m.node style router)
      [.ask (.routerPosition router), .ask (.routerName router)] :=
  (follows_ask (.routerPosition router)).bind fun _ _ => (follows_ask (.routerName router)).map _

theorem follows_nodes (style : NodeStyle) (routers : List RouterId) :
    Follows model policy .drawing (fun m => routers.mapM (m.node style)) (Model.routerCalls routers) :=
  follows_mapM fun router _ => follows_node style router

theorem follows_internalNodes : Follows model policy .drawing Model.internalNodes model.internalCalls :=
  follows_elements (q := fun m => ask m.internalRouters) (follows_ask .internalRouters) (fun _ => ask_eq_ok.mp)
    (follows_nodes .router)

theorem follows_externalNodes : Follows model policy .drawing Model.externalNodes model.externalCalls :=
  follows_elements (q := fun m => ask m.externalRouters) (follows_ask .externalRouters) (fun _ => ask_eq_ok.mp)
    (follows_nodes .external)

theorem follows_linkLines : Follows model policy .drawing Model.linkLines [.ask .edges] :=
  (follows_ask .edges).map _

theorem follows_labels (edges : List Edge) : Follows model policy .drawing (fun _ => edges.mapM Edge.label) [] := by
  have hmap : Follows model policy .drawing (fun _ => edges.mapM Edge.label) (edges.flatMap fun _ => []) :=
    follows_mapM fun e _ => follows_label e
  rwa [List.flatMap_eq_nil_iff.mpr fun _ _ => rfl] at hmap

theorem follows_weightLabels : Follows model policy .drawing Model.weightLabels [.ask .edges] :=
  (follows_ask .edges).bind fun edges _ => follows_labels edges

theorem follows_sessionLines : Follows model policy .drawing Model.sessionLines model.sessionCalls := by
  have hlines : ∀ sessions : List Session, Follows model policy .drawing (fun _ => sessions.mapM Session.line)
      (sessions.map fun s => .sessionKind s.kind) := by
    intro sessions
    rw [List.map_eq_flatMap]
    exact follows_mapM fun s _ => follows_session s
  exact follows_elements (q := fun m => ask m.sessions) (follows_ask .sessions) (fun _ => ask_eq_ok.mp) hlines

theorem follows_hopLines (key : P) :
    Follows model policy .drawing (fun m => m.hopLines key) (model.hopCalls key) := by
  have hhops : ∀ routers : List RouterId, Follows model policy .drawing
      (fun m => routers.mapM fun router => return (← ask (m.nextHops key router)).map (Command.nextHop router))
      (routers.map fun router => .ask (.nextHops key router)) := by
    intro routers
    rw [List.map_eq_flatMap]
    exact follows_mapM fun router _ => (follows_ask (.nextHops key router)).map (List.map (Command.nextHop router))
  exact follows_elements (q := fun m => ask m.internalRouters) (follows_ask .internalRouters) (fun _ => ask_eq_ok.mp)
    fun routers => (hhops routers).map List.flatten

theorem follows_propagationLines (key : P) :
    Follows model policy .drawing (fun m => m.propagationLines key) [.ask (.propagations key)] :=
  (follows_ask (.propagations key)).map _

theorem follows_blocks {lines : P → Model P → Drawing (List Command)} {calls : P → List (Call P)}
    (h : ∀ key, Follows model policy .drawing (lines key) (calls key)) (entries : List (PrefixEntry P)) :
    Follows model policy .drawing
      (fun m => entries.mapM fun entry => return Block.mk entry.toggle (← lines entry.key m))
      ((entries.map (·.key)).flatMap calls) := by
  rw [List.flatMap_map]
  exact follows_mapM fun entry _ => (h entry.key).map (Block.mk entry.toggle)

theorem follows_propagationBlocks (entries : List (PrefixEntry P)) :
    Follows model policy .drawing (fun m => m.propagationBlocks entries)
      ((entries.map (·.key)).map fun key => .ask (.propagations key)) := by
  rw [List.map_eq_flatMap]
  exact follows_blocks follows_propagationLines entries

theorem follows_picture (entries : List (PrefixEntry P)) :
    Follows model policy .drawing (fun m => m.picture entries) (model.pictureCalls (entries.map (·.key))) := by
  refine follows_internalNodes.bind fun internalNodes _ => follows_externalNodes.bind fun externalNodes _ => ?_
  refine follows_linkLines.bind fun links _ => ?_
  refine (follows_blocks follows_hopLines entries).bind fun nextHops _ => ?_
  refine follows_weightLabels.bind fun weights _ => follows_sessionLines.bind fun sessions _ => ?_
  exact (follows_propagationBlocks entries).map _

theorem follows_prefixEntries : Follows model policy (fun failure => .drawing (.query failure))
    Model.prefixEntries model.prefixCalls := by
  have hstrings : ∀ keys : List P, Follows model policy (fun failure => .drawing (.query failure))
      (fun m => keys.mapM fun key => return PrefixEntry.ofText key (← m.prefixString key))
      (keys.map fun key => .ask (.prefixString key)) := by
    intro keys
    rw [List.map_eq_flatMap]
    exact follows_mapM fun key _ => (follows_answer (.prefixString key)).map (PrefixEntry.ofText key)
  exact follows_elements (q := Model.knownPrefixes) (follows_answer .knownPrefixes) (fun _ => id) hstrings

end

/-! ## Resolved prefixes -/

inductive Model.PrefixesFail {P : Type} (model : Model P) : Prop
  | known {failure : QueryFailure} (known : model.knownPrefixes = .error failure)
  | text {keys : List P} {key : P} {failure : QueryFailure} (known : model.knownPrefixes = .ok keys) (mem : key ∈ keys)
      (text : model.prefixString key = .error failure)

namespace Model

section
variable {P : Type} (model : Model P)

structure Resolves (keys : List P) : Prop where
  known : model.knownPrefixes = .ok keys
  texts : ∀ key ∈ keys, ∃ text, model.prefixString key = .ok text

variable {model}

theorem Resolves.unique {keys keys' : List P} (h : model.Resolves keys) (h' : model.Resolves keys') : keys = keys' :=
  Except.ok.inj (h.known.symm.trans h'.known)

theorem Resolves.not_fail {keys : List P} (h : model.Resolves keys) : ¬ model.PrefixesFail := by
  intro hfail
  cases hfail with
  | known hknown =>
    rw [h.known] at hknown
    cases hknown
  | text hknown hmem htext =>
    obtain rfl := Except.ok.inj (h.known.symm.trans hknown)
    obtain ⟨text, hok⟩ := h.texts _ hmem
    rw [hok] at htext
    cases htext

theorem keys_of_entries {entries : List (PrefixEntry P)} (h : model.prefixEntries = .ok entries) :
    entries.map (·.key) = answered model.knownPrefixes ∧
      entries.map (·.text) = (answered model.knownPrefixes).map model.textOf := by
  obtain ⟨keys, hkeys, hentries⟩ := bind_eq_ok h
  rw [answered_ok hkeys]
  constructor
  · have hkey := map_of_mapM (g := id) (k := PrefixEntry.key) (fun key entry hentry => ?_) hentries
    · rw [← hkey, List.map_id]
    · obtain ⟨text, -, hentry⟩ := bind_eq_ok hentry
      cases hentry
      rfl
  · refine (map_of_mapM (fun key entry hentry => ?_) hentries).symm
    obtain ⟨text, htext, hentry⟩ := bind_eq_ok hentry
    cases hentry
    rw [textOf, htext]
    rfl

theorem findSome?_prefixCalls {entries : List (PrefixEntry P)} (h : model.prefixEntries = .ok entries)
    (policy : CollisionPolicy) : model.prefixCalls.findSome? (model.failure? policy) = none := by
  rw [← follows_prefixEntries.failure, h]
  rfl

theorem prefixesFail_of_error {failure : QueryFailure} (h : model.prefixEntries = .error failure) :
    model.PrefixesFail := by
  unfold prefixEntries at h
  cases hknown : model.knownPrefixes with
  | error e => exact .known hknown
  | ok keys =>
    rw [hknown] at h
    obtain ⟨before, key, after, rfl, hkey, -⟩ := mapM_eq_error_iff.mp h
    cases htext : model.prefixString key with
    | error e => exact .text hknown (by simp) htext
    | ok text =>
      rw [htext] at hkey
      cases hkey

theorem resolves_of_entries {entries : List (PrefixEntry P)} (h : model.prefixEntries = .ok entries) :
    model.Resolves (entries.map (·.key)) := by
  obtain ⟨keys, hkeys, hentries⟩ := bind_eq_ok h
  rw [(keys_of_entries h).1, answered_ok hkeys]
  refine ⟨hkeys, fun key hkey => ?_⟩
  obtain ⟨entry, hentry⟩ := exists_ok_of_mapM hentries key hkey
  obtain ⟨text, htext, -⟩ := bind_eq_ok hentry
  exact ⟨text, htext⟩

end

/-! ## Exports -/

section
variable {P : Type} {model : Model P} {request : OptionRequest} {warnings : List Warning}

/-- Building the sections fails as the first call that fails. -/
theorem errorOf?_buildSections : errorOf? (model.buildSections request warnings).result =
    model.calls.findSome? (model.failure? request.resolve.prefixCollisions) := by
  have hprefixes := (@follows_prefixEntries P model request.resolve.prefixCollisions).failure
  rw [calls, List.findSome?_append, ← hprefixes]
  unfold buildSections
  cases hentries : model.prefixEntries with
  | error failure => rfl
  | ok entries =>
    obtain ⟨hkeys, htexts⟩ := keys_of_entries hentries
    have hpicture := (@follows_picture P model request.resolve.prefixCollisions entries).failure
    dsimp only
    rw [← htexts, ← hkeys, List.findSome?_cons, ← hpicture, failure?]
    split
    · rfl
    · cases model.picture entries <;> rfl

theorem buildSections_congr {other : Model P} (hentries : other.prefixEntries = model.prefixEntries)
    (hpicture : ∀ entries, model.prefixEntries = .ok entries →
      ¬ (collisions (entries.map (·.text)) ≠ [] ∧ request.resolve.prefixCollisions = .error) →
      other.picture entries = model.picture entries) :
    other.buildSections request warnings = model.buildSections request warnings := by
  unfold buildSections
  rw [hentries]
  cases h : model.prefixEntries with
  | error failure => rfl
  | ok entries =>
    dsimp only
    split
    · rfl
    · rw [hpicture entries h ‹_›]

theorem buildSections_same {other : Model P}
    (h : ∀ call ∈ model.performed request.resolve.prefixCollisions model.calls, model.SameAnswer other call) :
    other.buildSections request warnings = model.buildSections request warnings := by
  have hprefixes := @follows_prefixEntries P model request.resolve.prefixCollisions
  have hsame := hprefixes.same other fun call hcall => h call (mem_performed_append hcall)
  refine buildSections_congr hsame fun entries hentries hpass => ?_
  obtain ⟨hkeys, htexts⟩ := keys_of_entries hentries
  have hnone := findSome?_prefixCalls hentries request.resolve.prefixCollisions
  have hpicture := @follows_picture P model request.resolve.prefixCollisions entries
  refine hpicture.same other fun call hcall => h call ?_
  rw [calls, performed_append_none (List.findSome?_eq_none_iff.mp hnone), ← htexts, ← hkeys, performed, failure?,
    if_neg hpass, if_pos rfl]
  exact List.mem_append_right _ (List.mem_cons_of_mem _ hcall)

end

end Model

def partialModel (edges : Query (List Edge)) (kind : Text) : Model Nat where
  internalRouters := .ok [.zero false]
  externalRouters := .ok [.one]
  routerName _ := .ok none
  routerPosition _ := .ok none
  edges := edges
  knownPrefixes := .ok [0]
  prefixString _ := .ok "10.0/8"
  nextHops key router := if key = 0 ∧ router = .zero false then .ok [.one] else .error ⟨"no route"⟩
  sessions := .ok [⟨.zero false, .one, kind⟩]
  propagations key := if key = 0 then .ok [] else .error ⟨"no propagation"⟩

def earlyCalls : List (Call Nat) := [
  .ask .knownPrefixes,
  .ask (.prefixString 0),
  .collisionCheck ["10.0/8"],
  .ask .internalRouters,
  .ask (.routerPosition (.zero false)),
  .ask (.routerName (.zero false)),
  .ask .externalRouters,
  .ask (.routerPosition .one),
  .ask (.routerName .one)]

end NetDiagram
