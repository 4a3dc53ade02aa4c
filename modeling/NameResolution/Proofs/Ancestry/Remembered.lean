import NameResolution.Proofs.Ancestry.Assembly
import NameResolution.Proofs.Ancestry.Descent
import NameResolution.Proofs.Environment.Built
import NameResolution.Proofs.Lists

/-!
# What is remembered of lineages

Every remembered lineage was assembled once, from what its links were supplied with: nothing, or
the line that was then remembered of their target. What such a step keeps holds of everything that
is ever remembered, cyclic ancestries included.

## Main definitions

* `Hierarchy.Supplied` — what a link is supplied with.
* `Hierarchy.lineagesAfter` — the lineages known after some requests.
* `Hierarchy.WellPlaced` — the form of a remembered lineage.

## Main statements

* `Hierarchy.Grown.rule` — the induction over what is remembered.
* `Hierarchy.remembered_lineage_form` — every remembered lineage has that form.
-/

namespace NameResolution

namespace Hierarchy

variable {h : Hierarchy} {known later : Lineages} {name : QualifiedName}
  {parts : List (Role × List QualifiedName)}

/-! ## Supplies -/

/-- A link is supplied with what is remembered of its target, or with nothing. -/
structure Supplied (known : Lineages) (link : Link) (part : Role × List QualifiedName) : Prop where
  role : part.1 = link.role
  line : part.2 = [] ∨ known.find? link.target = some part.2

theorem Supplied.mono {link : Link} {part : Role × List QualifiedName}
    (supplied : Supplied known link part) (grows : known.GrowsTo later) :
    Supplied later link part :=
  ⟨supplied.role, supplied.line.imp_right (grows _ _)⟩

/-- Whatever a link brings in is remembered of the link's target. -/
theorem Supplied.found {link : Link} {part : Role × List QualifiedName} {other : QualifiedName}
    (supplied : Supplied known link part) (mem : other ∈ part.2) :
    known.find? link.target = some part.2 := by
  rcases supplied.line with nothing | line
  · rw [nothing] at mem
    cases mem
  · exact line

theorem superclass_first_heritage (h : Hierarchy) (entry : ModuleEntry) :
    ∀ link ∈ (h.heritage entry).tail, link.role ≠ .superclass := by
  have mixin : ∀ link ∈ entry.mixins.filterMap
      (fun mixin => h.link? (.mixin mixin.form) mixin.moduleName), link.role ≠ .superclass := by
    intro link mem
    obtain ⟨mixin, -, found⟩ := List.mem_filterMap.1 mem
    obtain ⟨target, -, rfl⟩ := Option.map_eq_some_iff.1 found
    simp
  unfold heritage
  cases (h.superclass? entry).bind (h.link? .superclass) with
  | none => exact fun link mem => mixin link (List.mem_of_mem_tail mem)
  | some link => exact mixin

/-- Lines with the roles of the links of an entry have the superclass's line first. -/
theorem superclass_first {entry : ModuleEntry}
    (roles : parts.map Prod.fst = (h.heritage entry).map Link.role) :
    ∀ part ∈ parts.tail, part.1 ≠ .superclass := by
  intro part mem
  have role : part.1 ∈ (parts.map Prod.fst).tail := by
    rw [← List.map_tail]
    exact List.mem_map_of_mem mem
  rw [roles, ← List.map_tail] at role
  obtain ⟨link, mem, same⟩ := List.mem_map.1 role
  exact same ▸ h.superclass_first_heritage entry link mem

theorem roles_of_supplied {links : List Link}
    (supplied : List.Forall₂ (Supplied known) links parts) :
    parts.map Prod.fst = links.map Link.role := by
  induction supplied with
  | nil => rfl
  | cons first _ ih => rw [List.map_cons, List.map_cons, first.role, ih]

theorem exists_link_of_supplied {links : List Link} {part : Role × List QualifiedName}
    (supplied : List.Forall₂ (Supplied known) links parts) (mem : part ∈ parts) :
    ∃ link ∈ links, Supplied known link part :=
  exists_related_of_mem (List.Forall₂.flip supplied) mem

/-! ## The induction -/

/-- A computation keeps what storing an assembled line keeps, and what it returns is nothing or what
is remembered from then on. -/
theorem lineage_keeps {Inv : Lineages → Prop}
    (store : ∀ {known name entry parts}, known.find? name = none →
      h.environment.module? name = some entry →
      List.Forall₂ (Supplied known) (h.heritage entry) parts → Inv known →
      Inv (known.insertIfNew name (assemble name parts)))
    {unvisited : List QualifiedName} (nodup : unvisited.Nodup) (kept : Inv known)
    (name : QualifiedName) : Inv ((h.lineage unvisited name).run known).2 := by
  suffices single : ∀ unvisited name known, unvisited.Nodup → Inv known →
      let result := (h.lineage unvisited name).run known
      Inv result.2 ∧ Growth unvisited known result.2 ∧
        (result.1 = [] ∨ result.2.find? name = some result.1) from
    (single unvisited name known nodup kept).1
  refine (lineage_rule (h := h)
    (P := fun unvisited name known line later => unvisited.Nodup → Inv known →
      Inv later ∧ Growth unvisited known later ∧ (line = [] ∨ later.find? name = some line))
    (Q := fun unvisited links known parts later => unvisited.Nodup → Inv known →
      Inv later ∧ Growth unvisited known later ∧ List.Forall₂ (Supplied later) links parts)
    ?recalled ?barred ?entered ?nil ?cons).1
  case recalled => exact fun found _ kept => ⟨kept, .refl _ _, .inr found⟩
  case barred => exact fun _ _ _ kept => ⟨kept, .refl _ _, .inl rfl⟩
  case entered =>
    intro unvisited name known entry parts later fresh declared enterable computed nodup kept
    obtain ⟨kept, growth, supplied⟩ := computed (nodup.erase name) kept
    -- Nothing below enters `name` again, so it is still unknown when its line is stored.
    have still_fresh := growth.find?_eq_none fresh nodup.not_mem_erase
    exact ⟨store still_fresh declared supplied kept, growth.enter enterable _,
      .inr (OrderedMap.find?_insertIfNew_self _ still_fresh)⟩
  case nil => exact fun _ kept => ⟨kept, .refl _ _, .nil⟩
  case cons =>
    intro unvisited link links known line middle parts later first rest nodup kept
    obtain ⟨kept, growth, found⟩ := first nodup kept
    obtain ⟨kept, growth', supplied⟩ := rest nodup kept
    have supply : Supplied middle link (link.role, line) := ⟨rfl, found⟩
    exact ⟨kept, growth.trans growth', .cons (supply.mono growth'.keeps) supplied⟩

/-- What storing an assembled line keeps holds of everything that is ever remembered. -/
theorem Grown.rule {Inv : Lineages → Prop} (grown : h.Grown known) (empty : Inv ∅)
    (store : ∀ {known name entry parts}, known.find? name = none →
      h.environment.module? name = some entry →
      List.Forall₂ (Supplied known) (h.heritage entry) parts → Inv known →
      Inv (known.insertIfNew name (assemble name parts))) : Inv known := by
  induction grown with
  | empty => exact empty
  | @request known grown name ih =>
    cases leads : h.environment.normalize? name with
    | none =>
      rw [run_ancestors?_of_none leads]
      exact ih
    | some target =>
      rw [run_ancestors?_of_some leads]
      exact lineage_keeps store h.environment.modules.nodup_keys ih target

/-! ## Requests one after the other -/

/-- The lineages known once the ancestors of some names were asked for, in order. -/
def lineagesAfter (h : Hierarchy) (names : List QualifiedName) : Lineages :=
  ((names.mapM h.ancestors?).run ∅).2

theorem run_requests_cons (name : QualifiedName) (names : List QualifiedName) (known : Lineages) :
    (((name :: names).mapM h.ancestors?).run known).2 =
      ((names.mapM h.ancestors?).run ((h.ancestors? name).run known).2).2 := by
  rw [List.mapM_cons]
  rfl

theorem Grown.requests (grown : h.Grown known) (names : List QualifiedName) :
    h.Grown ((names.mapM h.ancestors?).run known).2 := by
  induction names generalizing known with
  | nil => exact grown
  | cons name names ih =>
    rw [run_requests_cons]
    exact ih (grown.request name)

theorem grown_lineagesAfter (h : Hierarchy) (names : List QualifiedName) :
    h.Grown (h.lineagesAfter names) :=
  Grown.empty.requests names

/-! ## The form of a line -/

/-- The class or module that the superclass of a class stands for. -/
def base? (h : Hierarchy) (name : QualifiedName) : Option QualifiedName :=
  ((h.environment.module? name).bind h.superclass?).bind h.environment.normalize?

/-- No class or module prepends. -/
def PrependFree (env : Environment) : Prop :=
  ∀ name entry, env.module? name = some entry → ∀ mixin ∈ entry.mixins, mixin.form ≠ .prepended

/-- The form of a lineage among those that are known. -/
structure WellPlaced (h : Hierarchy) (known : Lineages) (name : QualifiedName)
    (line : List QualifiedName) : Prop where
  once : line.count name = 1
  members : ∀ other ∈ line, (h.environment.module? other).isSome ∧ (known.find? other).isSome
  /-- Behind the owner stands what it includes and, behind that, the line of its superclass. -/
  parts : ∃ before after inherited, line = before ++ [name] ++ after ++ inherited ∧
    after.Nodup ∧ after.Disjoint inherited ∧
      (inherited = [] ∨ ∃ superclass, h.base? name = some superclass ∧
        known.find? superclass = some inherited)
  nodup : PrependFree h.environment → line.Nodup

theorem WellPlaced.mono {line : List QualifiedName} (placed : h.WellPlaced known name line)
    (grows : known.GrowsTo later) : h.WellPlaced later name line := by
  obtain ⟨before, after, inherited, split, nodup, disjoint, base⟩ := placed.parts
  refine ⟨placed.once, fun other mem => ?_, ⟨before, after, inherited, split, nodup, disjoint, ?_⟩,
    placed.nodup⟩
  · exact (placed.members other mem).imp_right grows.isSome
  · exact base.imp_right fun ⟨superclass, leads, found⟩ =>
      ⟨superclass, leads, grows superclass inherited found⟩

theorem base?_of_mem_heritage {entry : ModuleEntry} {link : Link}
    (declared : h.environment.module? name = some entry) (mem : link ∈ h.heritage entry)
    (role : link.role = .superclass) : h.base? name = some link.target := by
  cases mem_heritage_iff.1 mem with
  | superclass inherits leads => simp [base?, declared, inherits, leads]
  | mixin => cases role

theorem PrependFree.role_ne {entry : ModuleEntry} {link : Link}
    (free : PrependFree h.environment) (declared : h.environment.module? name = some entry)
    (mem : link ∈ h.heritage entry) : link.role ≠ .mixin .prepended := by
  cases mem_heritage_iff.1 mem with
  | superclass => simp
  | mixin mixes => simpa using free name entry declared _ mixes

/-- All known lineages have the form. -/
def AllPlaced (h : Hierarchy) (known : Lineages) : Prop :=
  ∀ name line, known.find? name = some line → h.WellPlaced known name line

/-- A line that is assembled from lines of the form has it too. -/
theorem AllPlaced.assemble {entry : ModuleEntry} (all : h.AllPlaced known)
    (fresh : known.find? name = none) (declared : h.environment.module? name = some entry)
    (supplied : List.Forall₂ (Supplied known) (h.heritage entry) parts) :
    h.WellPlaced (known.insertIfNew name (assemble name parts)) name (assemble name parts) := by
  have first := superclass_first (roles_of_supplied supplied)
  have grows := OrderedMap.GrowsTo.insertIfNew known name (NameResolution.assemble name parts)
  have brought : ∀ part ∈ parts, ∀ other ∈ part.2,
      (h.environment.module? other).isSome ∧ (known.find? other).isSome := by
    intro part mem other stands
    obtain ⟨link, -, given⟩ := exists_link_of_supplied supplied mem
    exact (all _ _ (given.found stands)).members other stands
  -- Every name that is brought in is known by now, and the owner is not.
  have strange : ∀ part ∈ parts, name ∉ part.2 := by
    intro part mem stands
    simpa [fresh] using (brought part mem name stands).2
  refine ⟨count_assemble first strange, fun other mem => ?_, ?_, fun free => ?_⟩
  · rcases (mem_assemble_iff first).1 mem with rfl | ⟨part, mem, stands⟩
    · exact ⟨by simp [declared], by simp [OrderedMap.find?_insertIfNew]⟩
    · exact (brought part mem other stands).imp_right grows.isSome
  · obtain ⟨before, after, inherited, split, nodup, disjoint, source⟩ :=
      exists_parts_assemble name first
    refine ⟨before, after, inherited, split, nodup, disjoint, ?_⟩
    rcases source with nothing | mem
    · exact .inl nothing
    · obtain ⟨link, linked, given⟩ := exists_link_of_supplied supplied mem
      refine given.line.imp_right fun found => ?_
      exact ⟨link.target, base?_of_mem_heritage declared linked given.role.symm,
        grows _ _ found⟩
  · refine nodup_assemble first strange (fun part mem => ?_) fun line mem => ?_
    · obtain ⟨link, linked, given⟩ := exists_link_of_supplied supplied mem
      exact given.role ▸ free.role_ne declared linked
    · obtain ⟨link, -, given⟩ := exists_link_of_supplied supplied mem
      rcases given.line with nothing | found
      · obtain rfl : line = [] := nothing
        exact List.nodup_nil
      · exact (all _ _ found).nodup free

theorem Grown.allPlaced (grown : h.Grown known) : h.AllPlaced known := by
  refine grown.rule (fun _ _ found => nomatch found) ?_
  intro known name entry parts fresh declared supplied all other line found
  rcases OrderedMap.find?_insertIfNew_cases found with before | ⟨rfl, rfl⟩
  · exact (all other line before).mono (.insertIfNew known name _)
  · exact all.assemble fresh declared supplied

end Hierarchy

/-! ## Declarations that prepend -/

/-- Whether the declaration prepends a module. -/
def Declaration.prepends : Declaration → Bool
  | .ofModule decl => decl.mixins.any (·.form == .prepended)
  | _ => false

theorem Environment.Built.prependFree {decls : List Declaration} {env : Environment}
    (built : Environment.Built decls env) (none_prepends : ∀ decl ∈ decls, decl.prepends = false) :
    Hierarchy.PrependFree env := by
  intro name entry found mixin mem form
  obtain ⟨decl, declared, -, mixes⟩ := built.exists_decl_of_mem_mixins found mem
  have none_here := none_prepends _ declared
  simp only [Declaration.prepends, List.any_eq_false, beq_iff_eq] at none_here
  exact none_here mixin mixes form

namespace Hierarchy

/-- After any requests, cyclic ancestries among them, every remembered lineage has its owner in it
once, consists of classes and modules whose lineages are remembered as well, and ends with the
remembered line of the superclass or with none. Behind the owner, what is included has no
repetition and nothing of that line. Where nothing prepends, nothing is repeated at all. -/
theorem remembered_lineage_form {decls : List Declaration} {env : Environment}
    (built : Environment.Built decls env) (builtins : Builtins) (names : List QualifiedName)
    {name : QualifiedName} {line : List QualifiedName}
    (remembered : (lineagesAfter ⟨env, builtins⟩ names).find? name = some line) :
    line.count name = 1 ∧
    (∀ other ∈ line, (env.module? other).isSome ∧
      other ∈ (lineagesAfter ⟨env, builtins⟩ names).keys) ∧
    (∃ before after inherited, line = before ++ [name] ++ after ++ inherited ∧
      after.Nodup ∧ after.Disjoint inherited ∧
        (inherited = [] ∨ ∃ superclass, base? ⟨env, builtins⟩ name = some superclass ∧
          (lineagesAfter ⟨env, builtins⟩ names).find? superclass = some inherited)) ∧
    ((∀ decl ∈ decls, decl.prepends = false) → line.Nodup) := by
  have placed := (grown_lineagesAfter ⟨env, builtins⟩ names).allPlaced name line remembered
  refine ⟨placed.once, fun other mem => ?_, placed.parts, fun none_prepends => ?_⟩
  · obtain ⟨declared, known⟩ := placed.members other mem
    exact ⟨declared, (OrderedMap.mem_keys_iff _ _).2 known⟩
  · exact placed.nodup (built.prependFree none_prepends)

/-- The lineage of a class in a cycle, with what was left of its superclass's. -/
theorem remembered_lineage_form_entangled :
    let a := Namespace.root.member "A"
    let b := Namespace.root.member "B"
    let known := lineagesAfter ⟨.entangled, .standard⟩ [a, b]
    known.find? a = some [a, b] ∧ known.find? b = some [b] ∧ [a, b].count a = 1 ∧
      a ∈ known.keys ∧ b ∈ known.keys ∧
      (∃ before after inherited, [a, b] = before ++ [a] ++ after ++ inherited ∧
        after.Nodup ∧ after.Disjoint inherited ∧
          (inherited = [] ∨ ∃ superclass, base? ⟨.entangled, .standard⟩ a = some superclass ∧
            known.find? superclass = some inherited)) ∧
      [a, b].Nodup := by
  intro a b known
  have remembered : known.find? a = some [a, b] := by decide +kernel
  obtain ⟨once, members, parts, nodup⟩ :=
    remembered_lineage_form Environment.built_entangled .standard [a, b] remembered
  exact ⟨remembered, by decide +kernel, once, (members a (by simp)).2, (members b (by simp)).2,
    parts, nodup (by decide)⟩

end Hierarchy

end NameResolution
