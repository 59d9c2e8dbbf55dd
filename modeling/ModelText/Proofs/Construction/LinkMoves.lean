import ModelText.Proofs.Construction.Alike
import ModelText.Proofs.Construction.Faithful
import ModelText.Proofs.Construction.IsolatedWalk

/-!
# Links written at other places of their element

A link of a reference is put aside at once, and nothing that is built later
looks at it. So it can be written anywhere among the members of its element:
slots and blocks are built all the same, and the elements in the blocks put
aside links of their own only. Only where a fault ends the unit it matters what
was written before, so nothing is said of work that does not succeed.
-/

namespace ModelText

open LinkRequest (linksOf)

/-! ### What puts no links of an object aside -/

namespace SessionWork

variable {ctx : BuildContext} {s t : Session} {object : ObjectId}

theorem requests_attach {span : Span} {composition : Feature}
    {children : List ObjectId}
    (h : (attach ctx span composition object children).exec s = (.ok (), t)) :
    t.requests = s.requests := by
  induction children generalizing s with
  | nil =>
    cases h
    rfl
  | cons child rest ih =>
    obtain ⟨_, u, hu, h⟩ := Work.exec_bind_eq_ok h
    have hc : ∀ r v, (change .attachment span
        (·.addChild composition object child)).exec s = (r, v) →
        v.requests = s.requests := by
      intro r v hv
      cases hg : s.graph.addChild composition object child with
      | error e =>
        rw [exec_change_of_error hg] at hv
        cases hv
        rfl
      | ok g =>
        rw [exec_change_of_ok hg] at hv
        cases hv
        rfl
    refine (ih h).trans ?_
    rcases exec_recover_eq hu with hv | ⟨f, v, hv, -, -, rfl⟩
    · exact hc _ u hv
    · exact hc _ v hv

/-- A link of a reference is put aside. -/
theorem exec_link (ctx : BuildContext) (object : ObjectId) {type : ObjectType}
    {feature : Spanned String} {reference : Feature}
    (hr : type.reference? feature.value = some reference)
    (path : Spanned (List String)) :
    ∃ request : LinkRequest, request.scope = object ∧ ∀ s,
      (recover ctx.unit (link ctx object type feature path)).exec s =
        (.ok (), { s with requests := s.requests ++ [request] }) := by
  let span := feature.span.union path.span
  refine ⟨⟨ctx.unit.name, .ofOffset ctx.unit.text span.start, span, object,
    reference, path.value⟩, rfl, fun s => Work.exec_recoverBy_of_ok ?_⟩
  unfold link
  rw [hr]
  rfl

end SessionWork

section

variable {ctx : BuildContext} {languages : NameSet} {s t : Session}

/-- The links of elements in a block are links of new objects. -/
theorem links_declarationWalk {declarations : List Declaration}
    {r : Except (Spanned Fault) (List ObjectId)}
    (h : (declarationWalk ctx languages declarations).exec s = (r, t))
    {id : ObjectId} (hi : id.index < s.graph.size) :
    linksOf t.requests id = linksOf s.requests id := by
  -- what is built behind the session is built on its own first
  rcases hx : (declarationWalk ctx languages declarations).exec .empty with
    ⟨r', own⟩
  have hs := (isolated_declarationWalk ctx languages declarations
    .empty).same _ own hx s
  rw [Session.append_empty, h] at hs
  cases hs
  have hn : linksOf (own.requests.map
      (LinkRequest.rename (ObjectId.shift s.graph.size))) id = [] := by
    refine LinkRequest.linksOf_of_ne fun q hq he => ?_
    obtain ⟨q', -, rfl⟩ := List.mem_map.1 hq
    rw [← he] at hi
    exact Nat.not_le_of_lt hi (Nat.le_add_right _ _)
  refine (LinkRequest.linksOf_append _ _ _).trans ?_
  rw [hn, List.append_nil]

theorem links_memberWalk {object : ObjectId} {type : ObjectType}
    {members : List Member} (hl : ∀ member ∈ members, member.isLink = false)
    (ht : s.graph.type? object = some (.object type))
    (h : (memberWalk ctx languages object type members).exec s = (.ok (), t)) :
    linksOf t.requests object = linksOf s.requests object := by
  induction members generalizing s with
  | nil =>
    rw [memberWalk] at h
    cases h
    rfl
  | cons member rest ih =>
    have hrest := fun m hm => hl m (List.mem_cons_of_mem member hm)
    cases member with
    | slot name value =>
      rw [memberWalk] at h
      obtain ⟨_, u, hu, h⟩ := Work.exec_bind_eq_ok h
      have hfills := SessionWork.fills_recover ctx.unit
        (SessionWork.fills_assign ctx.metamodel ctx.unit object _ name value s)
        _ _ hu
      rw [ih hrest (hfills.graph.type? ht) h, hfills.requests]
    | link feature path => exact absurd (hl _ List.mem_cons_self) nofun
    | block feature declarations span =>
      rw [memberWalk] at h
      obtain ⟨composition, s', h₁, hb⟩ := Work.exec_bind_eq_ok h
      obtain ⟨children, u, h₂, hb⟩ := Work.exec_bind_eq_ok hb
      obtain ⟨_, v, h₃, h₄⟩ := Work.exec_bind_eq_ok hb
      obtain ⟨hx, rfl⟩ := Work.exec_ofExcept_eq_ok h₁
      have hf := ObjectType.composition?_of_compositionNamed hx
      have htu := ((makes_declarationWalk ctx languages declarations s').moves
        _ u h₂).type? ht
      have htv := ((SessionWork.makes_attach ctx feature.span hf children
        htu).moves _ v h₃).type? htu
      rw [ih hrest htv h₄, SessionWork.requests_attach h₃,
        links_declarationWalk h₂ (Graph.lt_size_of_type? ht)]

end

/-! ### Links that pass over members -/

namespace Session

variable {s s' : Session} {object : ObjectId}

/-- A link that was put aside makes a difference only to its own object. -/
theorem Alike.putAside (h : s.Alike (· ≠ object) s') {request : LinkRequest}
    (hr : request.scope = object) :
    s.Alike (· ≠ object) { s' with requests := s'.requests ++ [request] } where
  graph := h.graph
  problems := h.problems
  links id hi := by
    have hn : linksOf [request] id = [] := by
      refine LinkRequest.linksOf_of_ne fun q hq he => hi ?_
      rw [← he, List.mem_singleton.1 hq, hr]
    dsimp only
    rw [LinkRequest.linksOf_append, hn, List.append_nil, h.links id hi]

theorem Alike.everywhere_of_ne (h : s.Alike (· ≠ object) s')
    (ho : linksOf s'.requests object = linksOf s.requests object) :
    s.Alike everywhere s' where
  graph := h.graph
  problems := h.problems
  links id _ := by
    by_cases hi : id = object
    · rw [hi, ho]
    · exact h.links id hi

end Session

section

open Work (Alike)

variable {ctx : BuildContext} {languages : NameSet} {object : ObjectId}
  {type : ObjectType} {s s' t : Session}

theorem memberWalk_append (members others : List Member) :
    memberWalk ctx languages object type (members ++ others) = (do
      memberWalk ctx languages object type members
      memberWalk ctx languages object type others) := by
  induction members with
  | nil =>
    rw [List.nil_append, memberWalk, pure_bind]
  | cons member rest ih =>
    cases member <;> simp only [List.cons_append, memberWalk, ih, bind_assoc]

/-- A header does on alike sessions what it does. -/
theorem declare_self (languages : NameSet) (atTop : Bool)
    (modifiers : List (Spanned String)) (typeWord : Spanned String)
    (name : Option (Spanned String)) (s : Session) :
    Alike everywhere True
      (SessionWork.declare ctx languages atTop modifiers typeWord name)
      (SessionWork.declare ctx languages atTop modifiers typeWord name) s :=
  .self (fun _ => SessionWork.alike_declare ⟨rfl, rfl, rfl⟩ languages atTop
    modifiers typeWord name) s

/-- Members do on alike sessions what they do. -/
theorem memberWalk_self {counts : ObjectId → Prop} (members : List Member)
    (s : Session) :
    Alike counts True (memberWalk ctx languages object type members)
      (memberWalk ctx languages object type members) s :=
  .self (alike_memberWalk ⟨rfl, rfl, rfl⟩ languages object type members) s

/-- Members without links do the same where a link of the element waits that did
not wait, or the other way round, and leave the links of the element alone. -/
theorem memberWalk_passed {members : List Member}
    (hl : ∀ member ∈ members, member.isLink = false)
    (ht : s.graph.type? object = some (.object type))
    (hs : s.Alike (· ≠ object) s')
    (h : (memberWalk ctx languages object type members).exec s = (.ok (), t)) :
    ∃ t', (memberWalk ctx languages object type members).exec s' =
        (.ok (), t') ∧
      t.Alike (· ≠ object) t' ∧
      linksOf t.requests object = linksOf s.requests object ∧
      linksOf t'.requests object = linksOf s'.requests object := by
  obtain ⟨t', h', ha⟩ := (memberWalk_self members s).ok hs h
  have ht' := ht
  rw [← hs.graph] at ht'
  exact ⟨t', h', ha, links_memberWalk hl ht h, links_memberWalk hl ht' h'⟩

variable {feature : Spanned String} {path : Spanned (List String)}
  {reference : Feature} {between : List Member}

theorem exec_memberWalk_link (ctx : BuildContext) (languages : NameSet)
    (object : ObjectId) (hr : type.reference? feature.value = some reference)
    (path : Spanned (List String)) (between : List Member) :
    ∃ request : LinkRequest, request.scope = object ∧
      (∀ s, (memberWalk ctx languages object type
          (.link feature path :: between)).exec s =
        (memberWalk ctx languages object type between).exec
          { s with requests := s.requests ++ [request] }) ∧
      ∀ s t, (memberWalk ctx languages object type between).exec s =
          (.ok (), t) →
        (memberWalk ctx languages object type
          (between ++ [.link feature path])).exec s =
            (.ok (), { t with requests := t.requests ++ [request] }) := by
  obtain ⟨request, hs, hx⟩ := SessionWork.exec_link ctx object hr path
  refine ⟨request, hs, fun s => ?_, fun s t h => ?_⟩
  · rw [memberWalk, Work.exec_bind_of_ok (hx s)]
  · rw [memberWalk_append, Work.exec_bind_of_ok h, memberWalk,
      Work.exec_bind_of_ok (hx t), memberWalk]
    rfl

/-- A link can be written later. -/
theorem alike_later
    (hr : type.reference? feature.value = some reference)
    (hl : ∀ member ∈ between, member.isLink = false)
    (ht : s.graph.type? object = some (.object type)) :
    Alike everywhere False
      (memberWalk ctx languages object type (.link feature path :: between))
      (memberWalk ctx languages object type (between ++ [.link feature path]))
      s where
  ok := by
    rintro s' ⟨⟩ t hs h
    obtain ⟨q, hq, hfirst, hlast⟩ :=
      exec_memberWalk_link ctx languages object hr path between
    -- on the way the first session has one link of the element more
    rw [hfirst] at h
    have hs' := (hs.symm.somewhere.putAside hq).symm
    obtain ⟨t', h', ha, hw, hw'⟩ := memberWalk_passed hl (by exact ht) hs' h
    refine ⟨_, hlast s' t' h', (ha.putAside hq).everywhere_of_ne ?_⟩
    dsimp only
    rw [LinkRequest.linksOf_append, hw, hw', LinkRequest.linksOf_append,
      hs.links object trivial]
  error hf := hf.elim

/-- A link can be written earlier. -/
theorem alike_earlier
    (hr : type.reference? feature.value = some reference)
    (hl : ∀ member ∈ between, member.isLink = false)
    (ht : s.graph.type? object = some (.object type)) :
    Alike everywhere False
      (memberWalk ctx languages object type (between ++ [.link feature path]))
      (memberWalk ctx languages object type (.link feature path :: between))
      s where
  ok := by
    rintro s' ⟨⟩ t hs h
    obtain ⟨q, hq, hfirst, hlast⟩ :=
      exec_memberWalk_link ctx languages object hr path between
    obtain ⟨_, u, hu, -⟩ :=
      Work.exec_bind_eq_ok (memberWalk_append between _ ▸ h)
    rw [hlast s u hu] at h
    cases h
    -- on the way the second session has one link of the element more
    have hs' := hs.somewhere.putAside hq
    obtain ⟨u', hu', ha, hw, hw'⟩ := memberWalk_passed hl ht hs' hu
    refine ⟨u', (hfirst s').trans hu', ?_⟩
    refine (ha.symm.putAside hq).symm.everywhere_of_ne ?_
    dsimp only
    rw [LinkRequest.linksOf_append, hw, hw', LinkRequest.linksOf_append,
      hs.links object trivial]
  error hf := hf.elim

/-- Members whose middle parts are built alike are built alike. -/
theorem alike_memberWalk_between {middle middle' : List Member}
    (h : ∀ t : Session, t.graph.type? object = some (.object type) →
      Alike everywhere False (memberWalk ctx languages object type middle)
        (memberWalk ctx languages object type middle') t)
    (before after : List Member)
    (ht : s.graph.type? object = some (.object type)) :
    Alike everywhere False
      (memberWalk ctx languages object type (before ++ (middle ++ after)))
      (memberWalk ctx languages object type (before ++ (middle' ++ after)))
      s := by
  rw [memberWalk_append, memberWalk_append before, memberWalk_append middle,
    memberWalk_append middle']
  refine .bind (memberWalk_self before s).mono fun _ t hb => ?_
  have hmoves := (makes_memberWalk ctx languages before s ht).moves _ t hb
  exact .bind (h t (hmoves.type? ht)) fun _ u _ =>
    (memberWalk_self after u).mono

theorem LinkMoved.alike {members members' : List Member}
    (h : LinkMoved type members members')
    (ht : s.graph.type? object = some (.object type)) :
    Alike everywhere False (memberWalk ctx languages object type members)
      (memberWalk ctx languages object type members') s := by
  cases h with
  | @later feature path _ before between after hr hl =>
    rw [List.append_cons between]
    exact alike_memberWalk_between (fun t ht => alike_later hr hl ht)
      before after ht
  | @earlier feature path _ before between after hr hl =>
    rw [List.append_cons between]
    exact alike_memberWalk_between (fun t ht => alike_earlier hr hl ht)
      before after ht

theorem alike_declarationWalk_between {d d' : Declaration}
    (h : ∀ t, Alike everywhere False (d.walk ctx languages false)
      (d'.walk ctx languages false) t) (first last : List Declaration)
    (s : Session) :
    Alike everywhere False (declarationWalk ctx languages (first ++ d :: last))
      (declarationWalk ctx languages (first ++ d' :: last)) s := by
  induction first generalizing s with
  | nil =>
    rw [List.nil_append, List.nil_append, declarationWalk, declarationWalk]
    exact .bind (h s) fun _ t _ => .bind (.mono (.self (alike_declarationWalk
      ⟨rfl, rfl, rfl⟩ languages last) t)) fun _ u _ => .pure _
  | cons other rest ih =>
    rw [List.cons_append, List.cons_append, declarationWalk, declarationWalk]
    exact .bind (.mono (.self (alike_walk ⟨rfl, rfl, rfl⟩ languages false
      other) s)) fun _ t _ => .bind (ih t) fun _ u _ => .pure _

/-- An element is built alike with one of the links in it at another place. -/
theorem Declaration.Moved.alike {c : Catalog}
    (hm : ctx.metamodel = c.metamodel) {d d' : Declaration} (h : d.Moved c d')
    (languages : NameSet) (atTop : Bool) (s : Session) :
    Alike everywhere False (d.walk ctx languages atTop)
      (d'.walk ctx languages atTop) s := by
  induction h generalizing atTop s with
  | @here modifiers typeWord name members members' span type ht hmoved =>
    rw [Declaration.walk, Declaration.walk]
    refine .bind
      (declare_self languages atTop modifiers typeWord name s).mono ?_
    rintro ⟨object, found⟩ t hd
    obtain ⟨he, hcreates⟩ := SessionWork.creates_declare hd
    cases ht.symm.trans (lookup?_of_elementType hm he)
    exact .bind (hmoved.alike hcreates.type) fun _ u _ => .pure _
  | @inside modifiers typeWord name span before after feature first last d d'
      block h ih =>
    rw [Declaration.walk, Declaration.walk]
    refine .bind
      (declare_self languages atTop modifiers typeWord name s).mono ?_
    rintro ⟨object, type⟩ t hd
    obtain ⟨-, hcreates⟩ := SessionWork.creates_declare hd
    have hb : ∀ u, Alike everywhere False
        (memberWalk ctx languages object type
          [.block feature (first ++ d :: last) block])
        (memberWalk ctx languages object type
          [.block feature (first ++ d' :: last) block]) u := by
      intro u
      rw [memberWalk, memberWalk]
      refine .bind (.ofExcept _ _ _) fun composition v _ =>
        .bind (alike_declarationWalk_between (ih false) first last v)
          fun children v _ => ?_
      exact .bind (.mono (SessionWork.alike_attach ⟨rfl, rfl, rfl⟩ _ _ _ _ _))
        fun _ v _ => (memberWalk_self [] v).mono
    exact .bind (alike_memberWalk_between (fun u _ => hb u) before after
      hcreates.type) fun _ u _ => .pure _

end

end ModelText
