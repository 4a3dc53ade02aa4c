import NameResolution.Lookup.Query
import NameResolution.Proofs.Constant.Candidates
import NameResolution.Proofs.Environment.Alias

/-!
# Answers without memory

What a query should be answered when the lists of ancestors are given. Tables are built afresh and
nothing is remembered, so an answer depends on the query and on the lists that the query consults,
and on nothing else.

## Main definitions

* `Kinship` — lists of ancestors, by name.
* `Hierarchy.decision` — what the first scope that has a name says of it.
* `Hierarchy.panorama` — everything that some scopes show.
* `Hierarchy.answer` — the answer to a query.
* `Query.consults` — the names whose ancestors a query consults.

## Main statements

* `Hierarchy.answer_congr` — nothing else is consulted.
* `Hierarchy.find?_panorama` — what is shown under a name is what the name is decided to be.
-/

namespace NameResolution

/-- Lists of ancestors by name, as far as they are known. -/
abbrev Kinship := QualifiedName → Option (List QualifiedName)

/-- The names whose ancestors a query consults. -/
def Query.consults (builtins : Builtins) : Query → List QualifiedName
  | .resolve _ context | .constants context => context.innermost?.toList ++ [builtins.object]
  | .ancestors name | .resolveChild name _ | .children name => [name]
  | .rootTable | .childTable _ | .enclosingTable _ | .constantAt _ | .typeName .. => []

namespace Resolution

/-- The first of two resolutions, or the second one where the first is absent. -/
def orElse (first later : Resolution) : Resolution :=
  match first with
  | absent => later
  | resolution => resolution

@[simp] theorem absent_orElse (later : Resolution) : absent.orElse later = later := rfl

@[simp] theorem found_orElse (c : Constant) (later : Resolution) :
    (found c).orElse later = found c := rfl

@[simp] theorem ambiguous_orElse (conflict : Ambiguity) (later : Resolution) :
    (ambiguous conflict).orElse later = ambiguous conflict := rfl

@[simp] theorem orElse_absent (first : Resolution) : first.orElse absent = first := by
  cases first <;> rfl

theorem orElse_of_ne_absent {first : Resolution} (present : first ≠ absent)
    (later : Resolution) : first.orElse later = first := by
  cases first with
  | absent => exact absurd rfl present
  | found c => rfl
  | ambiguous conflict => rfl

theorem orElse_assoc (first second third : Resolution) :
    (first.orElse second).orElse third = first.orElse (second.orElse third) := by
  cases first <;> rfl

theorem orElse_eq_absent_iff {first later : Resolution} :
    first.orElse later = absent ↔ first = absent ∧ later = absent := by
  cases first <;> simp

end Resolution

namespace Hierarchy

/-! ## Scopes -/

/-- The table of the class or module that a name stands for. -/
def childTable? (h : Hierarchy) (name : QualifiedName) : Option ConstantTable :=
  (h.environment.normalize? name).map fun target => h.environment.table target.toNamespace

/-- The table that a name is listed in. -/
def enclosingTable? (h : Hierarchy) (name : QualifiedName) : Option ConstantTable :=
  match name.parent? with
  | none => some (h.environment.table .root)
  | some parent => h.childTable? parent

/-- The table that a scope looks into. -/
def scopeTable? (h : Hierarchy) : Scope → Option ConstantTable
  | .root => some (h.environment.table .root)
  | .inside name => h.childTable? name
  | .around frame => h.enclosingTable? frame

/-- What one scope says of a name. -/
def verdict (h : Hierarchy) (name : String) (scope : Scope) : Resolution :=
  if scope.shows name then ((h.scopeTable? scope).map (·.lookup name)).getD .absent else .absent

/-- What the first scope that has a name says of it. -/
def decision (h : Hierarchy) (name : String) : List Scope → Resolution
  | [] => .absent
  | scope :: outer => (h.verdict name scope).orElse (h.decision name outer)

/-- Everything that some scopes show, closer scopes hiding farther ones. -/
def panorama (h : Hierarchy) : List Scope → Listing
  | [] => ∅
  | scope :: outer =>
    match h.scopeTable? scope with
    | none => h.panorama outer
    | some table => scope.merge table (h.panorama outer)

/-- The scopes of the innermost frame's ancestors. -/
def inheritedFrom (h : Hierarchy) (kin : Kinship) (context : Context) : List Scope :=
  match context.innermost? with
  | none => []
  | some frame => (((kin frame).getD []).filter (!h.builtins.isBuiltin ·)).map .inside

/-- The scopes of the object class's ancestors. -/
def objectFrom (h : Hierarchy) (kin : Kinship) : List Scope :=
  (appendMissing (((kin h.builtins.object).getD []).filter (· != h.builtins.object))
    [h.builtins.kernel, h.builtins.basicObject]).map .inside

/-- All scopes of a bare name. -/
def scopesFrom (h : Hierarchy) (kin : Kinship) (context : Context) : List Scope :=
  context.lexicalScopes ++ h.inheritedFrom kin context ++ h.outermostScopes ++ h.objectFrom kin

/-- Where a name qualified by a class or module is looked for. -/
def chainFrom? (h : Hierarchy) (kin : Kinship) (name : QualifiedName) :
    Option (List QualifiedName) :=
  (h.environment.normalize? name).map fun target =>
    if (h.environment.module? target).any (·.isClass) then
      appendMissing ((kin name).getD []) h.builtins.implicitAncestors
    else (kin name).getD []

/-! ## Answers -/

/-- The meaning of a bare name. -/
def resolution (h : Hierarchy) (kin : Kinship) (name : String) (context : Context) : Resolution :=
  if h.isDeclaredSomewhere name then h.decision name (h.scopesFrom kin context) else .absent

/-- The meaning of a name qualified by a class or module. -/
def childResolution (h : Hierarchy) (kin : Kinship) (qualifier : QualifiedName) (name : String) :
    Resolution :=
  if h.isDeclaredSomewhere name then
    match h.chainFrom? kin qualifier with
    | none => .absent
    | some chain => h.decision name (chain.map .inside)
  else .absent

/-- The meaning of a type name. -/
def typeMeaning (h : Hierarchy) (name : QualifiedName) (context : Context) :
    Option QualifiedName :=
  if name.isAbsolute then some name else (h.environment.typePath? name context).map TypePath.spelled

/-- The answer to a query. -/
def answer (h : Hierarchy) (kin : Kinship) : Query → Answer
  | .rootTable => .table (some (h.environment.table .root))
  | .childTable name => .table (h.childTable? name)
  | .enclosingTable name => .table (h.enclosingTable? name)
  | .constantAt name => .resolution (h.verdict name.last (.around name))
  | .ancestors name => .ancestors (kin name)
  | .resolve name context => .resolution (h.resolution kin name context)
  | .resolveChild qualifier name => .resolution (h.childResolution kin qualifier name)
  | .constants context => .listing (some (h.panorama (h.scopesFrom kin context)))
  | .children qualifier =>
    .listing ((h.chainFrom? kin qualifier).map fun chain => h.panorama (chain.map .inside))
  | .typeName name context => .typeName (h.typeMeaning name context)

variable {h : Hierarchy} {kin kin' : Kinship}

theorem scopesFrom_congr {context : Context}
    (same : ∀ name ∈ context.innermost?.toList ++ [h.builtins.object], kin name = kin' name) :
    h.scopesFrom kin context = h.scopesFrom kin' context := by
  have object : kin h.builtins.object = kin' h.builtins.object := same _ (by simp)
  have inherited : h.inheritedFrom kin context = h.inheritedFrom kin' context := by
    unfold inheritedFrom
    split
    · rfl
    · next frame innermost =>
      have mem : frame ∈ context.innermost?.toList ++ [h.builtins.object] := by simp [innermost]
      rw [same frame mem]
  simp [scopesFrom, inherited, objectFrom, object]

theorem answer_congr {query : Query}
    (same : ∀ name ∈ query.consults h.builtins, kin name = kin' name) :
    h.answer kin query = h.answer kin' query := by
  cases query with
  | resolve name context => simp [answer, resolution, scopesFrom_congr same]
  | constants context => simp [answer, scopesFrom_congr same]
  | ancestors name => simp [answer, same name List.mem_cons_self]
  | resolveChild qualifier name =>
    simp [answer, childResolution, chainFrom?, same qualifier List.mem_cons_self]
  | children qualifier => simp [answer, chainFrom?, same qualifier List.mem_cons_self]
  | rootTable => rfl
  | childTable name => rfl
  | enclosingTable name => rfl
  | constantAt name => rfl
  | typeName name context => rfl

/-! ## Deciding and listing -/

theorem decision_append (h : Hierarchy) (name : String) (scopes later : List Scope) :
    h.decision name (scopes ++ later) =
      (h.decision name scopes).orElse (h.decision name later) := by
  induction scopes with
  | nil => rfl
  | cons scope scopes ih => rw [List.cons_append, decision, decision, ih, Resolution.orElse_assoc]

theorem lookup_filter_shows (scope : Scope) (entries : List (String × Constant)) (name : String) :
    (entries.filter (scope.shows ·.1)).lookup name =
      if scope.shows name then entries.lookup name else none := by
  induction entries with
  | nil => simp
  | cons entry entries ih =>
    obtain ⟨key, c⟩ := entry
    rw [List.filter_cons, List.lookup_cons]
    by_cases same : name = key
    · subst same
      cases shown : scope.shows name with
      | true => simp
      | false => simpa [shown] using ih
    · have differs : (name == key) = false := by simpa using same
      split <;> simp [List.lookup_cons, differs, ih]

theorem find?_merge (scope : Scope) (table : ConstantTable) (listing : Listing) (name : String) :
    (scope.merge table listing).find? name =
      (if scope.shows name then table.get? name else none).or (listing.find? name) := by
  have distinct : ((table.firsts.filter (scope.shows ·.1)).map Prod.fst).Nodup :=
    (List.filter_sublist.map _).nodup table.nodup_keys_firsts
  rw [← table.lookup_firsts, ← lookup_filter_shows]
  exact OrderedMap.find?_insertAll listing distinct name

/-- What is shown under a name is what the name is decided to be. -/
theorem find?_panorama (h : Hierarchy) (name : String) (scopes : List Scope) :
    (h.panorama scopes).find? name = (h.decision name scopes).first? := by
  induction scopes with
  | nil => rfl
  | cons scope scopes ih =>
    rw [panorama, decision, verdict]
    cases h.scopeTable? scope with
    | none => simpa using ih
    | some table =>
      have first : (table.lookup name).first? = table.get? name :=
        Resolution.first?_ofCandidates
      cases shown : scope.shows name with
      | false => simpa [find?_merge, shown] using ih
      | true =>
        cases listed : table.get? name with
        | none =>
          have absent : table.lookup name = .absent :=
            Resolution.ofCandidates_eq_absent_iff.2 (List.head?_eq_none_iff.1 listed)
          simpa [find?_merge, shown, listed, absent] using ih
        | some c =>
          rw [listed] at first
          simp only [find?_merge, shown, listed, if_true, Option.some_or, Option.map_some,
            Option.getD_some]
          cases here : table.lookup name with
          | absent =>
            rw [here] at first
            cases first
          | found d => exact (here ▸ first).symm
          | ambiguous conflict => exact (here ▸ first).symm

end Hierarchy

end NameResolution
