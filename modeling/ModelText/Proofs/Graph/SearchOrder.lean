import ModelText.Proofs.Graph.Operations

/-!
# The order of a search

A search for a path goes through a list of objects: those of a chain of holders,
each followed by what it holds, and behind them the roots. The first object that
has the first name of the path is taken, and from there each name leads to the
first object of that name that is held. An object of the same name further
behind in the list does not matter, not even where the first one leads nowhere.

All this is true of an object as soon as its own chain of holders ends, whatever
the rest of the graph is like.
-/

namespace ModelText.Graph

variable {g : Graph} {id : ObjectId} {chain : List ObjectId} {name : String}

/-! ### First objects of a name -/

/-- An object is the first one of its name in a list. -/
def FirstNamed (g : Graph) (name : String) (list : List ObjectId)
    (id : ObjectId) : Prop :=
  g.name? id = some name ∧ ∃ before after, list = before ++ id :: after ∧
    ∀ x ∈ before, g.name? x ≠ some name

theorem find?_eq_some_iff {list : List ObjectId} :
    (list.find? fun x => g.name? x = some name) = some id ↔
      g.FirstNamed name list id := by
  rw [List.find?_eq_some_iff_append]
  simp [FirstNamed]

/-- What comes behind an object of the name does not matter. -/
theorem firstNamed_append {list behind : List ObjectId}
    (h : ∃ x ∈ list, g.name? x = some name) :
    g.FirstNamed name (list ++ behind) id ↔ g.FirstNamed name list id := by
  have hs : (list.find? fun x => g.name? x = some name).isSome := by
    obtain ⟨x, hx, hn⟩ := h
    exact List.find?_isSome.2 ⟨x, hx, decide_eq_true hn⟩
  obtain ⟨found, hf⟩ := Option.isSome_iff_exists.1 hs
  rw [← find?_eq_some_iff, ← find?_eq_some_iff, List.find?_append, hf]
  rfl

/-- Names lead downwards from an object, each to the first object of that name
that is held. -/
inductive LeadsDown (g : Graph) : ObjectId → List String → ObjectId → Prop
  | here {id : ObjectId} : LeadsDown g id [] id
  | down {id child target : ObjectId} {name : String} {rest : List String} :
    g.FirstNamed name (g.children id) child → LeadsDown g child rest target →
    LeadsDown g id (name :: rest) target

theorem foldlM_childNamed?_iff {path : List String} {target : ObjectId} :
    path.foldlM g.childNamed? id = some target ↔ g.LeadsDown id path target := by
  induction path generalizing id with
  | nil =>
    constructor
    · rintro ⟨⟩
      exact .here
    · rintro ⟨⟩
      rfl
  | cons name rest ih =>
    rw [List.foldlM_cons]
    refine Option.bind_eq_some_iff.trans ⟨?_, ?_⟩
    · rintro ⟨child, hc, hd⟩
      exact .down (find?_eq_some_iff.1 hc) (ih.1 hd)
    · rintro (_ | ⟨hc, hd⟩)
      exact ⟨_, find?_eq_some_iff.2 hc, ih.2 hd⟩

/-! ### The search -/

/-- An object and what it holds. -/
def around (g : Graph) (id : ObjectId) : List ObjectId := id :: g.children id

/-- What a search along a chain of holders goes through, in order. -/
def searchOrder (g : Graph) (chain : List ObjectId) : List ObjectId :=
  chain.flatMap g.around ++ g.roots

/-- What a path means that is searched for in a list: its first name means the
first object there, and the other names lead downwards. -/
inductive Means (g : Graph) (list : List ObjectId) :
    List String → ObjectId → Prop
  | intro {first : String} {rest : List String} {start target : ObjectId} :
    g.FirstNamed first list start → g.LeadsDown start rest target →
    Means g list (first :: rest) target

variable {scope : ObjectId}

theorem Chain.resolve?_eq_some_iff (h : g.Chain scope chain)
    {path : List String} {target : ObjectId} :
    g.resolve? scope path = some target ↔
      g.Means (g.searchOrder chain) path target := by
  cases path with
  | nil => exact ⟨nofun, nofun⟩
  | cons first rest =>
    have hlist : g.candidates scope = g.searchOrder chain := by
      unfold candidates
      rw [h.enclosing_eq]
      rfl
    rw [resolve?, hlist]
    refine Option.bind_eq_some_iff.trans ⟨?_, ?_⟩
    · rintro ⟨start, hs, hd⟩
      exact .intro (find?_eq_some_iff.1 hs) (foldlM_childNamed?_iff.1 hd)
    · rintro ⟨hs, hd⟩
      exact ⟨_, find?_eq_some_iff.2 hs, foldlM_childNamed?_iff.2 hd⟩

/-- **Where the chain of an object ends, the search for a path from it ends too,
with what the path means in the order of the search.** So a name that is found
on an inner part of the chain hides what there is further out. -/
theorem resolves_in_search_order (h : g.Chain scope chain) :
    (∀ path found,
      g.Resolves scope path found ↔ found = g.resolve? scope path) ∧
    (∀ path target, g.resolve? scope path = some target ↔
      g.Means (g.searchOrder chain) path target) ∧
    ∀ inner outer first, chain = inner ++ outer →
      (∃ x ∈ inner.flatMap g.around, g.name? x = some first) →
      ∀ rest target, g.resolve? scope (first :: rest) = some target ↔
        g.Means (inner.flatMap g.around) (first :: rest) target := by
  refine ⟨h.resolves_iff, fun _ _ => h.resolve?_eq_some_iff, ?_⟩
  intro inner outer first hchain hx rest target
  have hfirst : ∀ x, g.FirstNamed first (g.searchOrder chain) x ↔
      g.FirstNamed first (inner.flatMap g.around) x := by
    intro x
    rw [searchOrder, hchain, List.flatMap_append, List.append_assoc,
      firstNamed_append hx]
  rw [h.resolve?_eq_some_iff]
  constructor
  · rintro ⟨hs, hd⟩
    exact .intro ((hfirst _).1 hs) hd
  · rintro ⟨hs, hd⟩
    exact .intro ((hfirst _).2 hs) hd

/-- A box in a box: read from the outer one, its name means the outer one, and
the leaf that only the inner one holds is not found. -/
theorem resolves_in_search_order_box :
    let nodes : Feature := ⟨"nodes", "Node", false, true⟩
    let type : StructuredType :=
      .object ⟨"Node", "Trees", false, true, .empty, [], [nodes], []⟩
    let g := empty.run [.instantiate type true, .setName ⟨0⟩ "tree",
      .instantiate type false, .setName ⟨1⟩ "box", .addChild nodes ⟨0⟩ ⟨1⟩,
      .instantiate type false, .setName ⟨2⟩ "box", .addChild nodes ⟨1⟩ ⟨2⟩,
      .instantiate type false, .setName ⟨3⟩ "leaf", .addChild nodes ⟨2⟩ ⟨3⟩]
    g.Chain ⟨1⟩ [⟨1⟩, ⟨0⟩] ∧ g.Resolves ⟨1⟩ ["box", "box", "leaf"] (some ⟨3⟩) ∧
      ∀ target, ¬ g.Means (g.searchOrder [⟨1⟩, ⟨0⟩]) ["box", "leaf"] target := by
  intro nodes type g
  have hc : g.Chain ⟨1⟩ [⟨1⟩, ⟨0⟩] :=
    .step (by decide +kernel) (.last (by decide +kernel))
  obtain ⟨hends, hmeans, -⟩ := resolves_in_search_order hc
  refine ⟨hc, (hends _ _).2 (by decide +kernel), fun target ht => ?_⟩
  have hnone : g.resolve? ⟨1⟩ ["box", "leaf"] = none := by decide +kernel
  cases hnone.symm.trans ((hmeans _ target).2 ht)

end ModelText.Graph
