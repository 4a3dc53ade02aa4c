import NameResolution.Lookup.TypeName
import NameResolution.Proofs.Ancestry.Descent
import NameResolution.Proofs.Environment.Stored
import NameResolution.Proofs.OrderedMap.Match

/-!
# Environments that store the same

Two environments agree when they store the same under each name. In which order their maps came to
have their keys is then nowhere to be seen: chains of aliases end in the same names, lineages are
worked out in the same way, and type names lead to the same declarations. For most of that it is
enough that they have the same classes, modules and aliases.

## Main definitions

* `Environment.Agrees` — the two environments store the same under each name.
* `Environment.SameModules` — they have the same classes, modules and aliases under each name.

## Main statements

* `Environment.SameModules.normalize?_eq` — names stand for the same classes and modules.
* `Environment.Agrees.typePath?_eq` — type names are followed to the same declarations.
* `Hierarchy.lineage_eq_of_entered` — the induction that compares lineages of two hierarchies.
* `Hierarchy.ancestors?_eq_of_sameModules` — a request for ancestors does the same to any lineages.
-/

namespace NameResolution

namespace Environment

variable {env env' : Environment}

/-- The two environments store the same under each name. -/
def Agrees (env env' : Environment) : Prop := ∀ name, env.stored name = env'.stored name

theorem constantsNamed_congr {name : QualifiedName} (same : env.stored name = env'.stored name) :
    env.constantsNamed name = env'.constantsNamed name := by
  have module_eq : env.module? name = env'.module? name := congrArg Stored.module? same
  have alias_eq : env.alias? name = env'.alias? name := congrArg Stored.alias? same
  have constants_eq : env.constantDecls name = env'.constantDecls name :=
    congrArg Stored.constants same
  rw [constantsNamed, constantsNamed, module_eq, alias_eq, constants_eq]

theorem headType?_congr (types : ∀ name, env.isTypeName name = env'.isTypeName name)
    (context : Context) (simple : String) :
    env.headType? context simple = env'.headType? context simple := by
  rw [headType?, headType?, funext types]

/-- Chains of aliases end in the same names where there are the same aliases, and classes and
modules of the same names. -/
theorem follow_congr (modules : ∀ name, env.modules.contains name = env'.modules.contains name)
    (aliases : ∀ name, env.alias? name = env'.alias? name) {unused unused' : List QualifiedName}
    (perm : unused.Perm unused') (name : QualifiedName) :
    env.follow unused name = env'.follow unused' name := by
  fun_induction follow env unused name generalizing unused' with
  | case1 unused name here =>
    rw [follow, if_pos (modules name ▸ here)]
  | case2 unused name absent unaliased =>
    rw [follow, if_neg (modules name ▸ absent), ← aliases, unaliased]
  | case3 unused name absent decl aliased fresh ih =>
    have fresh' : name ∈ unused' := perm.mem_iff.1 fresh
    rw [ih (perm.erase name), follow.eq_def env' unused' name,
      if_neg (modules name ▸ absent), ← aliases, aliased]
    simp [fresh']
  | case4 unused name absent decl aliased used =>
    have used' : name ∉ unused' := fun mem => used (perm.mem_iff.2 mem)
    rw [follow, if_neg (modules name ▸ absent), ← aliases, aliased]
    simp [used']

theorem normalize?_congr (modules : ∀ name, env.modules.contains name = env'.modules.contains name)
    (aliases : ∀ name, env.alias? name = env'.alias? name) (name : QualifiedName) :
    env.normalize? name = env'.normalize? name :=
  follow_congr modules aliases ((OrderedMap.perm_entries aliases).map Prod.fst) name

/-- Components are followed in the same way where the same names can stand in a type and names stand
for the same classes and modules. -/
theorem walk?_congr (types : ∀ name, env.isTypeName name = env'.isTypeName name)
    (leads : ∀ name, env.normalize? name = env'.normalize? name) (path : TypePath)
    (components : List String) : env.walk? path components = env'.walk? path components := by
  induction components generalizing path with
  | nil => rfl
  | cons component rest ih => simp only [walk?, descend?, types, leads, ih]

theorem typePath?_congr (types : ∀ name, env.isTypeName name = env'.isTypeName name)
    (leads : ∀ name, env.normalize? name = env'.normalize? name)
    (pooled : ∀ simple, (env.pool.find? simple).isSome = (env'.pool.find? simple).isSome)
    (name : QualifiedName) (context : Context) :
    env.typePath? name context = env'.typePath? name context := by
  simp only [typePath?, pooled, headType?_congr types, walk?_congr types leads]

/-- The two environments have the same classes, modules and aliases under each name. -/
structure SameModules (env env' : Environment) : Prop where
  module?_eq : ∀ name, env.module? name = env'.module? name
  alias?_eq : ∀ name, env.alias? name = env'.alias? name

namespace SameModules

variable (same : env.SameModules env') (name : QualifiedName)

include same

theorem perm_modules : env.modules.entries.Perm env'.modules.entries :=
  OrderedMap.perm_entries same.module?_eq

theorem perm_aliases : env.aliases.entries.Perm env'.aliases.entries :=
  OrderedMap.perm_entries same.alias?_eq

theorem contains_modules_eq : env.modules.contains name = env'.modules.contains name :=
  congrArg Option.isSome (same.module?_eq name)

/-! ## Aliases -/

theorem normalize?_eq : env.normalize? name = env'.normalize? name :=
  normalize?_congr same.contains_modules_eq same.alias?_eq name

end SameModules

namespace Agrees

variable (agrees : env.Agrees env') (name : QualifiedName)

include agrees

omit name in
theorem sameModules : env.SameModules env' where
  module?_eq name := congrArg Stored.module? (agrees name)
  alias?_eq name := congrArg Stored.alias? (agrees name)

theorem isTypeName_eq : env.isTypeName name = env'.isTypeName name := by
  have alias_eq : env.aliases.contains name = env'.aliases.contains name :=
    congrArg Option.isSome (agrees.sameModules.alias?_eq name)
  have interface_eq : env.interfaces.contains name = env'.interfaces.contains name :=
    congrArg (fun stored => stored.interface?.isSome) (agrees name)
  have typeAlias_eq : env.typeAliases.contains name = env'.typeAliases.contains name :=
    congrArg (fun stored => stored.typeAlias?.isSome) (agrees name)
  rw [isTypeName, isTypeName, isModuleName, isModuleName,
    agrees.sameModules.contains_modules_eq, alias_eq, interface_eq, typeAlias_eq]

theorem typePath?_eq (context : Context)
    (pooled : ∀ simple, (env.pool.find? simple).isSome = (env'.pool.find? simple).isSome) :
    env.typePath? name context = env'.typePath? name context :=
  typePath?_congr agrees.isTypeName_eq agrees.sameModules.normalize?_eq pooled name context

end Agrees

end Environment

namespace Hierarchy

variable {env env' : Environment} {unvisited unvisited' : List QualifiedName}

/-! ## Ancestors -/

/-- An entry has the same links where names stand for the same classes and modules. -/
theorem heritage_congr (same : ∀ name, env.normalize? name = env'.normalize? name)
    (builtins : Builtins) (entry : ModuleEntry) :
    heritage ⟨env, builtins⟩ entry = heritage ⟨env', builtins⟩ entry := by
  have link_eq : link? ⟨env, builtins⟩ = link? ⟨env', builtins⟩ := by
    funext role name
    rw [link?, link?, same]
  rw [heritage, heritage, link_eq]
  rfl

/-- Two hierarchies work all lineages out in the same way when they have classes and modules of the
same names, and whatever is entered gets the same line in both, provided that links are followed in
the same way from there. The lists of what may be entered need only stay related. -/
theorem lineage_eq_of_entered {h h' : Hierarchy}
    {R : List QualifiedName → List QualifiedName → Prop}
    (mem_iff : ∀ {unvisited unvisited'} name, R unvisited unvisited' →
      (name ∈ unvisited ↔ name ∈ unvisited'))
    (erase : ∀ {unvisited unvisited'} name, R unvisited unvisited' →
      R (unvisited.erase name) (unvisited'.erase name))
    (isSome_iff : ∀ name,
      (h.environment.module? name).isSome ↔ (h'.environment.module? name).isSome)
    (entered : ∀ {unvisited unvisited' name entry entry'}, R unvisited unvisited' →
      h.environment.module? name = some entry → h'.environment.module? name = some entry' →
      h.lineParts unvisited = h'.lineParts unvisited' → ∀ known,
      let parts := (h.lineParts unvisited (h.heritage entry)).run known
      let parts' := (h'.lineParts unvisited' (h'.heritage entry')).run known
      assemble name parts.1 = assemble name parts'.1 ∧ parts.2 = parts'.2)
    (related : R unvisited unvisited') (name : QualifiedName) :
    h.lineage unvisited name = h'.lineage unvisited' name := by
  induction length : unvisited.length using Nat.strongRecOn
    generalizing unvisited unvisited' name with
  | _ size ih =>
    refine StateT.ext fun known => ?_
    cases found : known.find? name with
    | some line => rw [run_lineage_of_known found, run_lineage_of_known found]
    | none =>
      by_cases enterable : (h.environment.module? name).isSome ∧ name ∈ unvisited
      · obtain ⟨declared, mem⟩ := enterable
        obtain ⟨entry', declared'⟩ := Option.isSome_iff_exists.1 ((isSome_iff name).1 declared)
        obtain ⟨entry, declared⟩ := Option.isSome_iff_exists.1 declared
        have smaller : (unvisited.erase name).length < size := by
          have := List.length_pos_of_mem mem
          rw [List.length_erase_of_mem mem]
          omega
        have parts_eq : h.lineParts (unvisited.erase name) =
            h'.lineParts (unvisited'.erase name) := by
          funext links
          simp only [lineParts, ih _ smaller (erase name related) _ rfl]
        obtain ⟨line_eq, later_eq⟩ := entered (erase name related) declared declared' parts_eq known
        rw [run_lineage_of_entered found declared mem,
          run_lineage_of_entered found declared' ((mem_iff name related).1 mem)]
        simp only [line_eq, later_eq]
      · have enterable' : ¬((h'.environment.module? name).isSome ∧ name ∈ unvisited') := by
          rwa [← isSome_iff, ← mem_iff name related]
        rw [run_lineage_of_barred found, run_lineage_of_barred found]
        · exact (Classical.not_and_iff_not_or_not.1 enterable').imp_left
            Option.not_isSome_iff_eq_none.1
        · exact (Classical.not_and_iff_not_or_not.1 enterable).imp_left
            Option.not_isSome_iff_eq_none.1

theorem lineage_eq_of_sameModules (same : env.SameModules env') (builtins : Builtins)
    (perm : unvisited.Perm unvisited') (name : QualifiedName) :
    lineage ⟨env, builtins⟩ unvisited name = lineage ⟨env', builtins⟩ unvisited' name := by
  refine lineage_eq_of_entered (R := List.Perm) (fun _ perm => perm.mem_iff)
    (fun name perm => perm.erase name) (fun name => by rw [same.module?_eq]) ?_ perm name
  intro unvisited unvisited' name entry entry' _ declared declared' parts_eq known
  rw [same.module?_eq, declared', Option.some.injEq] at declared
  rw [parts_eq, heritage_congr same.normalize?_eq, declared]
  exact ⟨rfl, rfl⟩

theorem ancestors?_eq_of_sameModules (same : env.SameModules env') (builtins : Builtins)
    (name : QualifiedName) :
    ancestors? ⟨env, builtins⟩ name = ancestors? ⟨env', builtins⟩ name := by
  have perm : env.modules.keys.Perm env'.modules.keys := same.perm_modules.map Prod.fst
  rw [ancestors?, ancestors?]
  simp only [same.normalize?_eq, lineage_eq_of_sameModules same builtins perm]

end Hierarchy

end NameResolution
