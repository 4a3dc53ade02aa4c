import Mathlib.Data.List.Forall2
import NameResolution.Proofs.Lookup.Transcript

/-!
# Looking through aliases

A lookup goes on from what a name stands for, so names that stand for the same class or module can
take each other's place in a query. The one thing that depends on the spelling is a frame's own
name, which is seen from its body.

## Main definitions

* `Query.Renames` — a query with the target of an alias in place of the alias.

## Main statements

* `Hierarchy.search_congr` — a search only depends on what each scope says.
* `Hierarchy.find?_listing_congr` — the listings of the two contexts of one run.
* `Hierarchy.ask_eq_of_renames` — the two queries do the same to any memory.
-/

namespace NameResolution

/-- The second query has `target` in the place of `spelled`. In a context any one frame may be
replaced, but the name that is looked for must not be the innermost frame's own. -/
inductive Query.Renames (spelled target : QualifiedName) : Query → Query → Prop
  | childTable : Renames spelled target (.childTable spelled) (.childTable target)
  | ancestors : Renames spelled target (.ancestors spelled) (.ancestors target)
  | children : Renames spelled target (.children spelled) (.children target)
  | resolveChild (name : String) :
      Renames spelled target (.resolveChild spelled name) (.resolveChild target name)
  | resolve (name : String) (inner outer : List QualifiedName)
      (foreign : inner = [] → name ≠ spelled.last ∧ name ≠ target.last) :
      Renames spelled target (.resolve name ⟨inner ++ spelled :: outer⟩)
        (.resolve name ⟨inner ++ target :: outer⟩)

namespace Environment

/-- A module with a constant, and a chain of two aliases in another module that leads to it. -/
def chainedDecls : List Declaration :=
  let k := Namespace.root.member "K"
  let m := Namespace.root.member "M"
  let q := k.toNamespace.member "Q"
  let r := k.toNamespace.member "R"
  [.ofModule ⟨k, .ofModule [], [], none⟩,
    .ofModule ⟨m, .ofModule [], [], none⟩,
    .ofConstant ⟨m.toNamespace.member "X", .singleton m, none⟩,
    .ofAlias ⟨q, r, .moduleKind, none⟩,
    .ofAlias ⟨r, m, .moduleKind, none⟩]

/-- The environment of `chainedDecls`. -/
def chained : Environment := (ofDeclarations chainedDecls).toOption.getD ∅

end Environment

namespace Hierarchy

variable {h : Hierarchy} {name : String}

/-! ## Searching -/

theorem lookupIn_around_of_foreign {frame : QualifiedName} (foreign : name ≠ frame.last) :
    h.lookupIn name (.around frame) = pure .absent := by
  simp [lookupIn, Scope.shows, Ne.symm foreign]

/-- A search only depends on what each scope says. -/
theorem search_congr {scopes scopes' : List Scope}
    (same : List.Forall₂ (fun scope scope' => h.lookupIn name scope = h.lookupIn name scope')
      scopes scopes') : h.search name scopes = h.search name scopes' := by
  induction same with
  | nil => rfl
  | cons first _ ih => rw [search, search, first, ih]

theorem searchStages_congr {scopes scopes' : List Scope} (later : List (StateM Memory (List Scope)))
    (same : h.search name scopes = h.search name scopes') :
    h.searchStages name (pure scopes :: later) = h.searchStages name (pure scopes' :: later) := by
  rw [searchStages, searchStages, pure_bind, pure_bind, same]

theorem verdict_around_of_foreign {frame : QualifiedName} (foreign : name ≠ frame.last) :
    h.verdict name (.around frame) = .absent := by
  simp [verdict, Scope.shows, Ne.symm foreign]

theorem decision_congr {scopes scopes' : List Scope}
    (same : List.Forall₂ (fun scope scope' => h.verdict name scope = h.verdict name scope')
      scopes scopes') : h.decision name scopes = h.decision name scopes' := by
  induction same with
  | nil => rfl
  | cons first _ ih => rw [decision, decision, first, ih]

/-! ## One frame for another -/

section Frames

variable {α : Type} {view : Scope → α} {a b : QualifiedName}

theorem forall₂_frames (inside : view (.inside a) = view (.inside b))
    (inner outer : List QualifiedName) :
    List.Forall₂ (fun scope scope' => view scope = view scope')
      ((inner ++ a :: outer).map .inside) ((inner ++ b :: outer).map .inside) := by
  induction inner with
  | nil => exact .cons inside (List.forall₂_same.2 fun _ _ => rfl)
  | cons frame inner ih => exact .cons rfl ih

/-- When a frame is replaced by one that looks the same from inside, every scope looks as it did.
For the innermost frame, what surrounds it has to look the same as well. -/
theorem forall₂_lexicalScopes (inside : view (.inside a) = view (.inside b))
    (inner outer : List QualifiedName)
    (around : inner = [] → view (.around a) = view (.around b)) :
    List.Forall₂ (fun scope scope' => view scope = view scope')
      (Context.lexicalScopes ⟨inner ++ a :: outer⟩)
      (Context.lexicalScopes ⟨inner ++ b :: outer⟩) := by
  cases inner with
  | nil => exact .cons inside (.cons (around rfl) (List.forall₂_same.2 fun _ _ => rfl))
  | cons frame inner => exact .cons rfl (.cons rfl (forall₂_frames inside inner outer))

theorem inheritedFrom_congr {kin : Kinship} (alike : kin a = kin b)
    (inner outer : List QualifiedName) :
    h.inheritedFrom kin ⟨inner ++ a :: outer⟩ = h.inheritedFrom kin ⟨inner ++ b :: outer⟩ := by
  cases inner with
  | nil => simp [inheritedFrom, Context.innermost?, alike]
  | cons frame inner => rfl

end Frames

/-! ## Two names for one class or module -/

section SameTarget

variable {a b : QualifiedName} (same : h.environment.normalize? a = h.environment.normalize? b)

include same

theorem openChildren?_congr : h.openChildren? a = h.openChildren? b := by
  rw [openChildren?, openChildren?, same]

theorem recallAncestors?_congr : h.recallAncestors? a = h.recallAncestors? b := by
  rw [recallAncestors?, recallAncestors?, ancestors?, ancestors?, same]

theorem memberChain?_congr : h.memberChain? a = h.memberChain? b := by
  rw [memberChain?, memberChain?, same]

theorem resolveChild_congr (name : String) : h.resolveChild a name = h.resolveChild b name := by
  rw [resolveChild, resolveChild, memberChain?_congr same]

theorem children_congr : h.children a = h.children b := by
  rw [children, children, same]

theorem verdict_inside_congr (name : String) :
    h.verdict name (.inside a) = h.verdict name (.inside b) := by
  simp only [verdict, Scope.shows, scopeTable?, childTable?, same]

theorem lookupIn_inside_congr (name : String) :
    h.lookupIn name (.inside a) = h.lookupIn name (.inside b) := by
  rw [lookupIn, lookupIn, openScope?, openScope?, openChildren?_congr same]
  rfl

/-- The frames say the same of every name that is not the replaced innermost frame's own. -/
theorem search_lexicalScopes_congr (inner outer : List QualifiedName)
    (foreign : inner = [] → name ≠ a.last ∧ name ≠ b.last) :
    h.search name (Context.lexicalScopes ⟨inner ++ a :: outer⟩) =
      h.search name (Context.lexicalScopes ⟨inner ++ b :: outer⟩) := by
  refine search_congr (forall₂_lexicalScopes (lookupIn_inside_congr same name) inner outer ?_)
  intro innermost
  obtain ⟨foreign_a, foreign_b⟩ := foreign innermost
  rw [lookupIn_around_of_foreign foreign_a, lookupIn_around_of_foreign foreign_b]

theorem inheritedScopes_congr (inner outer : List QualifiedName) :
    h.inheritedScopes ⟨inner ++ a :: outer⟩ = h.inheritedScopes ⟨inner ++ b :: outer⟩ := by
  cases inner with
  | nil =>
    change (do
      let line := (← h.recallAncestors? a).getD []
      return (line.filter (!h.builtins.isBuiltin ·)).map Scope.inside) = _
    rw [recallAncestors?_congr same]
    rfl
  | cons frame inner => rfl

theorem resolve_congr (inner outer : List QualifiedName)
    (foreign : inner = [] → name ≠ a.last ∧ name ≠ b.last) :
    h.resolve name ⟨inner ++ a :: outer⟩ = h.resolve name ⟨inner ++ b :: outer⟩ := by
  rw [resolve, resolve, inheritedScopes_congr same,
    searchStages_congr _ (search_lexicalScopes_congr same inner outer foreign)]

/-! ## Listings -/

theorem decision_lexicalScopes_congr (inner outer : List QualifiedName)
    (foreign : inner = [] → name ≠ a.last ∧ name ≠ b.last) :
    h.decision name (Context.lexicalScopes ⟨inner ++ a :: outer⟩) =
      h.decision name (Context.lexicalScopes ⟨inner ++ b :: outer⟩) := by
  refine decision_congr (forall₂_lexicalScopes (verdict_inside_congr same name) inner outer ?_)
  intro innermost
  obtain ⟨foreign_a, foreign_b⟩ := foreign innermost
  rw [verdict_around_of_foreign foreign_a, verdict_around_of_foreign foreign_b]

/-- In one run, the two listings show the same under every name that is not the replaced innermost
frame's own. -/
theorem find?_listing_congr {queries : List Query} (inner outer : List QualifiedName)
    {listing listing' : Listing}
    (asked : (.constants ⟨inner ++ a :: outer⟩, .listing (some listing)) ∈ h.transcript queries)
    (asked' : (.constants ⟨inner ++ b :: outer⟩, .listing (some listing')) ∈ h.transcript queries)
    (foreign : inner = [] → name ≠ a.last ∧ name ≠ b.last) :
    listing.find? name = listing'.find? name := by
  have alike : (h.memoryAfter queries).kin h a = (h.memoryAfter queries).kin h b := by
    unfold Memory.kin
    rw [same]
  obtain rfl := Option.some.inj (Answer.listing.inj (eq_answer_of_mem_transcript asked))
  obtain rfl := Option.some.inj (Answer.listing.inj (eq_answer_of_mem_transcript asked'))
  rw [find?_panorama, find?_panorama, scopesFrom, scopesFrom, inheritedFrom_congr alike]
  simp only [decision_append, decision_lexicalScopes_congr same inner outer foreign]

/-! ## Queries -/

theorem ask_congr {query query' : Query} (renames : Query.Renames a b query query') :
    h.ask query = h.ask query' := by
  cases renames with
  | childTable => rw [ask, ask, openChildren?_congr same]
  | ancestors => rw [ask, ask, recallAncestors?_congr same]
  | children => rw [ask, ask, children_congr same]
  | resolveChild name => rw [ask, ask, resolveChild_congr same]
  | resolve name inner outer foreign => rw [ask, ask, resolve_congr same inner outer foreign]

end SameTarget

/-- A name may be replaced by the class or module that it stands for: from whatever is remembered,
the two queries give the same answer and leave the same memory. In one run, where other queries may
come before, between and after them, they are answered the same in either order. -/
theorem ask_eq_of_renames {spelled target : QualifiedName} {query query' : Query}
    (leads : h.environment.normalize? spelled = some target)
    (renames : Query.Renames spelled target query query') :
    h.ask query = h.ask query' ∧
      ∀ queries answer answer', (query, answer) ∈ h.transcript queries →
        (query', answer') ∈ h.transcript queries → answer = answer' := by
  have ask_eq : h.ask query = h.ask query' :=
    ask_congr (Environment.normalize?_eq_of_leads leads) renames
  refine ⟨ask_eq, fun queries answer answer' asked asked' => ?_⟩
  rw [eq_ask_of_mem_transcript asked, eq_ask_of_mem_transcript asked', ask_eq]

/-- Inside the first alias of a chain, the constants of the module at its end are found. The
alias's own name is found as well, but not inside the module. -/
theorem ask_eq_of_renames_chained :
    let k := Namespace.root.member "K"
    let m := Namespace.root.member "M"
    let q := k.toNamespace.member "Q"
    let h : Hierarchy := ⟨.chained, .standard⟩
    h.environment.normalize? q = some m ∧
      ((h.ask (.resolve "X" ⟨[q]⟩)).run ∅).1 =
        .resolution (.found ⟨m.toNamespace.member "X", .singleton m, none⟩) ∧
      ((h.ask (.resolve "Q" ⟨[q]⟩)).run ∅).1 = .resolution (.found ⟨q, .singleton q, none⟩) ∧
      ((h.ask (.resolve "Q" ⟨[m]⟩)).run ∅).1 = .resolution .absent := by
  intro k m q h
  have leads : h.environment.normalize? q = some m := by decide +kernel
  have inside : ((h.ask (.resolve "X" ⟨[m]⟩)).run ∅).1 =
      .resolution (.found ⟨m.toNamespace.member "X", .singleton m, none⟩) := by decide +kernel
  obtain ⟨same, -⟩ := ask_eq_of_renames (h := h) leads
    (.resolve "X" [] [] fun _ => by decide)
  exact ⟨leads, same ▸ inside, by decide +kernel, by decide +kernel⟩

end Hierarchy

end NameResolution
