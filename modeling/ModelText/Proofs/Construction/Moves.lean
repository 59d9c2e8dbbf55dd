import ModelText.Proofs.Construction.Walk
import ModelText.Proofs.Graph.Conformance
import Mathlib.Logic.Relation

/-!
# What building can do to a session

Whatever a unit contains, building it takes few kinds of moves: objects of
types of the metamodel are created, named, given values that fit their slots,
and attached through a composition of the holder's type; problems of the unit
are reported; links of references of an element's type are put aside. Every
invariant of building is proved for these moves, once each, and holds then for
all units.

`Work.Makes` says that a piece of work makes moves only. What the work knows of
the objects it works on are their types, and these do not change.
-/

namespace ModelText

/-- There are objects of the type. -/
def Metamodel.Admits (m : Metamodel) : StructuredType → Prop
  | .object type => type.isAbstract = false ∧
      ∃ name languages, m.visible? name languages = some (.object type)
  | .record type => ∃ name, m.lookup? name = some (.record type)

/-- The slot can be given a value: it is the one of its name, or the type is one
of elements, whose slots have different names. -/
def StructuredType.Offers (type : StructuredType) (slot : Slot) : Prop :=
  type.slot? slot.name = some slot ∨
    ∃ element, type = .object element ∧ slot ∈ element.slots

/-- What building does to a graph in one move. -/
inductive Graph.Move (m : Metamodel) : Graph → Graph → Prop
  | create (g : Graph) (type : StructuredType) (isRoot : Bool)
      (ha : m.Admits type) : Move m g (g.instantiate type isRoot).2
  | name {g h : Graph} {id : ObjectId} {name : String}
      (hm : g.setName id name = .ok h) : Move m g h
  | assign {g h : Graph} {id : ObjectId} {type : StructuredType} {slot : Slot}
      {value : Value} (ht : g.type? id = some type) (hs : type.Offers slot)
      (hf : g.Fits m slot value) (hm : g.setValue slot id value = .ok h) :
      Move m g h
  | hold {g h : Graph} {parent child : ObjectId} {type : ObjectType}
      {composition : Feature} (ht : g.type? parent = some (.object type))
      (hc : type.composition? composition.name = some composition)
      (hm : g.addChild composition parent child = .ok h) : Move m g h

/-- What building a unit does to a session in one move. -/
inductive Session.Move (m : Metamodel) (source : String) :
    Session → Session → Prop
  | graph {s : Session} {g : Graph} (hm : s.graph.Move m g) :
      Move m source s { s with graph := g }
  | report (s : Session) (p : Problem) (hp : p.source = source) :
      Move m source s (s.report p)
  | defer (s : Session) (r : LinkRequest) {type : ObjectType}
      (hr : r.source = source)
      (ht : s.graph.type? r.scope = some (.object type))
      (hf : type.reference? r.reference.name = some r.reference) :
      Move m source s { s with requests := s.requests ++ [r] }

/-- What building a unit does to a session. -/
abbrev Session.Moves (m : Metamodel) (source : String) :
    Session → Session → Prop :=
  Relation.ReflTransGen (Session.Move m source)

/-! ### Types stay -/

namespace Graph

theorem Move.type? {m : Metamodel} {g h : Graph} (hm : g.Move m h)
    {id : ObjectId} {type : StructuredType} (ht : g.type? id = some type) :
    h.type? id = some type := by
  cases hm with
  | create _ _ _ => exact type?_instantiate_of_some ht
  | name hm =>
    rw [setName_eq_ok hm]
    refine (type?_update ?_).trans ht
    exact fun _ => rfl
  | assign _ _ _ hm => exact (type?_setValue hm id).trans ht
  | hold _ _ hm => exact (type?_addChild hm id).trans ht

end Graph

theorem Session.Moves.type? {m : Metamodel} {source : String} {s t : Session}
    (h : s.Moves m source t) {id : ObjectId} {type : StructuredType}
    (ht : s.graph.type? id = some type) : t.graph.type? id = some type := by
  induction h with
  | refl => exact ht
  | tail _ hm ih =>
    cases hm with
    | graph hm => exact hm.type? ih
    | report => exact ih
    | defer => exact ih

/-! ### Work that makes moves -/

/-- The work makes moves, also if a fault ends it, and its result has `post`. -/
structure Work.Makes {α : Type} (m : Metamodel) (source : String)
    (work : SessionWork α) (s : Session) (post : α → Session → Prop) :
    Prop where
  moves : ∀ r t, work.exec s = (r, t) → s.Moves m source t
  post : ∀ a t, work.exec s = (.ok a, t) → post a t

namespace Work

variable {α β : Type} {m : Metamodel} {source : String} {s : Session}
  {work : SessionWork α} {post : α → Session → Prop}

theorem Makes.pure {a : α} (hp : post a s) :
    Makes m source (pure a) s post where
  moves r t h := by
    cases h
    exact .refl
  post b t h := by
    cases h
    exact hp

theorem Makes.fail (fault : Fault) (span : Span) :
    Makes m source (fail fault span) s post where
  moves r t h := by
    cases h
    exact .refl
  post b t h := by cases h

theorem Makes.ofExcept {result : Except Fault α} (span : Span)
    (hp : ∀ a, result = .ok a → post a s) :
    Makes m source (ofExcept span result) s post := by
  cases result with
  | error fault => exact .fail fault span
  | ok a => exact .pure (hp a rfl)

theorem Makes.bind {next : α → SessionWork β} {post' : β → Session → Prop}
    (hw : Makes m source work s post)
    (hn : ∀ a t, s.Moves m source t → post a t →
      Makes m source (next a) t post') :
    Makes m source (work >>= next) s post' where
  moves r t h := by
    rcases exec_bind_eq h with ⟨f, hr, -⟩ | ⟨a, u, hr, h⟩
    · exact hw.moves _ t hr
    · have hu := hw.moves _ u hr
      exact hu.trans ((hn a u hu (hw.post a u hr)).moves r t h)
  post b t h := by
    obtain ⟨a, u, hr, h⟩ := exec_bind_eq_ok h
    exact (hn a u (hw.moves _ u hr) (hw.post a u hr)).post b t h

end Work

namespace SessionWork

open Work (Makes)

variable {m : Metamodel} {source : String} {s : Session} {object : ObjectId}

theorem moves_reportFault (unit : SourceUnit) (s : Session)
    (f : Spanned Fault) : s.Moves m unit.name (s.reportFault unit f) :=
  .single (.report s _ (Problem.source_locate _ _ _))

theorem makes_report (unit : SourceUnit) (f : Spanned Fault) :
    Makes m unit.name (report unit f) s fun _ _ => True where
  moves r t h := by
    cases h
    exact moves_reportFault unit s f
  post _ _ _ := trivial

theorem makes_recover {unit : SourceUnit} {work : SessionWork Unit}
    {post : Unit → Session → Prop} (h : Makes m unit.name work s post) :
    Makes m unit.name (recover unit work) s fun _ _ => True where
  moves r t hr := by
    rcases hw : work.exec s with ⟨f | ⟨⟩, u⟩
    · have hu := h.moves _ u hw
      cases hf : f.value.severity.isFatal with
      | true =>
        rw [recover, Work.exec_recoverBy_of_fatal hw hf] at hr
        cases hr
        exact hu
      | false =>
        rw [recover, Work.exec_recoverBy_of_error hw hf] at hr
        exact hu.trans ((makes_report unit f).moves r t hr)
    · rw [recover, Work.exec_recoverBy_of_ok hw] at hr
      cases hr
      exact h.moves _ t hw
  post _ _ _ := trivial

theorem makes_instantiate {type : StructuredType} (ha : m.Admits type)
    (isRoot : Bool) :
    Makes m source (instantiate type isRoot) s
      fun id t => t.graph.type? id = some type where
  moves r t h := by
    cases h
    exact .single (.graph (.create _ type isRoot ha))
  post a t h := by
    cases h
    exact Graph.type?_instantiate_self _ _ _

/-- A change that is a move if the graph allows it. -/
theorem makes_change (attempt : Attempt) (span : Span)
    {f : Graph → Except Graph.Error Graph}
    (hf : ∀ g, f s.graph = .ok g → s.graph.Move m g) :
    Makes m source (change attempt span f) s fun _ _ => True where
  moves r t h := by
    cases hg : f s.graph with
    | error e =>
      rw [exec_change_of_error hg] at h
      cases h
      exact .refl
    | ok g =>
      rw [exec_change_of_ok hg] at h
      cases h
      exact .single (.graph (hf g hg))
  post _ _ _ := trivial

end SessionWork

end ModelText
