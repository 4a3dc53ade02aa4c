import NameResolution.Proofs.Ancestry.Descent
import NameResolution.Proofs.Lookup.Answer

/-!
# Coherent memories

A memory is coherent when everything in it is right. A computation that keeps the memory coherent,
only adds to it, and gives a result that is right in every later memory settles its result. That
composes along the steps of a computation.

## Main definitions

* `Memory.GrowsTo` — a later memory has everything that an earlier one has.
* `Memory.kin` — the lists of ancestors that a memory knows.
* `Memory.Coherent` — what is remembered is right.
* `Hierarchy.Settles` — a computation whose result stays right in every later memory.

## Main statements

* `Hierarchy.Settles.bind` — one step after the other.
* `Hierarchy.Settles.store` — a result may be stored where what is stored is right.
-/

namespace NameResolution

/-! ## Memories -/

namespace Memory

/-- Everything that the first memory has is in the second one. -/
structure GrowsTo (m later : Memory) : Prop where
  tables : m.tables.GrowsTo later.tables
  lineages : m.lineages.GrowsTo later.lineages
  contexts : m.contexts.GrowsTo later.contexts
  children : m.children.GrowsTo later.children
  typeNames : m.typeNames.GrowsTo later.typeNames

namespace GrowsTo

variable {m later final : Memory}

protected theorem refl (m : Memory) : m.GrowsTo m := ⟨.refl _, .refl _, .refl _, .refl _, .refl _⟩

protected theorem trans (first : m.GrowsTo later) (second : later.GrowsTo final) :
    m.GrowsTo final :=
  ⟨first.tables.trans second.tables, first.lineages.trans second.lineages,
    first.contexts.trans second.contexts, first.children.trans second.children,
    first.typeNames.trans second.typeNames⟩

end GrowsTo

/-- The lists of ancestors that the memory knows. -/
def kin (m : Memory) (h : Hierarchy) : Kinship :=
  fun name => (h.environment.normalize? name).bind m.lineages.find?

/-- The ancestors of what the name stands for are known, if it stands for anything. -/
def Knows (m : Memory) (h : Hierarchy) (name : QualifiedName) : Prop :=
  ∀ target, h.environment.normalize? name = some target → (m.lineages.find? target).isSome

/-- The answer is right in the memory, which knows all ancestors that the query consults. -/
structure Settled (m : Memory) (h : Hierarchy) (query : Query) (answer : Answer) : Prop where
  knows : ∀ name ∈ query.consults h.builtins, m.Knows h name
  right : answer = h.answer (m.kin h) query

section kin

variable {m later : Memory} {h : Hierarchy} {name : QualifiedName}

theorem Knows.mono (knows : m.Knows h name) (grows : m.GrowsTo later) : later.Knows h name :=
  fun target leads => grows.lineages.isSome (knows target leads)

theorem Knows.kin_eq (knows : m.Knows h name) (grows : m.GrowsTo later) :
    later.kin h name = m.kin h name := by
  unfold kin
  cases leads : h.environment.normalize? name with
  | none => rfl
  | some target => exact grows.lineages.find?_eq (knows target leads)

theorem kin_of_leads {target : QualifiedName}
    (leads : h.environment.normalize? name = some target) :
    m.kin h target = m.kin h name := by
  simp [kin, leads, Environment.normalize?_of_normalize? leads]

theorem knows_of_leads {target : QualifiedName}
    (leads : h.environment.normalize? name = some target) (knows : m.Knows h target) :
    m.Knows h name := by
  intro target' leads'
  obtain rfl : target = target' := Option.some.inj (leads.symm.trans leads')
  exact knows target (Environment.normalize?_of_normalize? leads)

theorem Settled.mono {query : Query} {answer : Answer} (settled : m.Settled h query answer)
    (grows : m.GrowsTo later) : later.Settled h query answer := by
  refine ⟨fun name mem => (settled.knows name mem).mono grows, settled.right.trans ?_⟩
  apply Hierarchy.answer_congr
  intro name mem
  exact ((settled.knows name mem).kin_eq grows).symm

end kin

/-- What is remembered is right: tables and type names are those of the environment, and listings
are those that the known lineages give. -/
structure Coherent (h : Hierarchy) (m : Memory) : Prop where
  lineages : h.Grown m.lineages
  tables : ∀ ns table, m.tables.find? ns = some table → table = h.environment.table ns
  contexts : ∀ context listing, m.contexts.find? context = some listing →
    m.Settled h (.constants context) (.listing (some listing))
  children : ∀ target listing, m.children.find? target = some listing →
    m.Settled h (.children target) (.listing (some listing))
  typeNames : ∀ name context meaning, m.typeNames.find? (name, context) = some meaning →
    meaning = (h.environment.typePath? name context).map TypePath.spelled

section Coherent

variable {m later : Memory} {h : Hierarchy}

theorem Coherent.contexts_mono (coherent : Coherent h m) (grows : m.GrowsTo later)
    (context : Context) (listing : Listing) (found : m.contexts.find? context = some listing) :
    later.Settled h (.constants context) (.listing (some listing)) :=
  (coherent.contexts context listing found).mono grows

theorem Coherent.children_mono (coherent : Coherent h m) (grows : m.GrowsTo later)
    (target : QualifiedName) (listing : Listing) (found : m.children.find? target = some listing) :
    later.Settled h (.children target) (.listing (some listing)) :=
  (coherent.children target listing found).mono grows

/-- A memory stays coherent when requests add to its lineages. -/
theorem Coherent.add_lineages (coherent : Coherent h m) {lineages : Lineages}
    (grown : h.Grown lineages) (grows : m.lineages.GrowsTo lineages) :
    Coherent h { m with lineages } ∧ m.GrowsTo { m with lineages } := by
  have grows : m.GrowsTo { m with lineages } := { GrowsTo.refl m with lineages := grows }
  exact ⟨⟨grown, coherent.tables, coherent.contexts_mono grows, coherent.children_mono grows,
    coherent.typeNames⟩, grows⟩

end Coherent

theorem coherent_empty (h : Hierarchy) : Coherent h ∅ where
  lineages := .empty
  tables := nofun
  contexts := nofun
  children := nofun
  typeNames := nofun

end Memory

namespace Hierarchy

variable {h : Hierarchy} {α β : Type}

/-! ## Computations -/

/-- The computation keeps the memory coherent and only adds to it, and its result is right in every
later memory. -/
def Settles (h : Hierarchy) (op : StateM Memory α) (right : Memory → α → Prop) : Prop :=
  ∀ m, m.Coherent h → (op.run m).2.Coherent h ∧ m.GrowsTo (op.run m).2 ∧
    ∀ later, later.Coherent h → (op.run m).2.GrowsTo later → right later (op.run m).1

namespace Settles

variable {op : StateM Memory α} {right : Memory → α → Prop}

protected theorem pure {a : α} (always : ∀ m, m.Coherent h → right m a) :
    h.Settles (pure a) right :=
  fun m coherent => ⟨coherent, .refl m, fun later coherent' _ => always later coherent'⟩

protected theorem bind {next : α → StateM Memory β} {final : Memory → β → Prop}
    (first : h.Settles op right)
    (second : ∀ a, h.Settles (next a) fun m b => right m a → final m b) :
    h.Settles (op >>= next) final := by
  intro m coherent
  obtain ⟨coherent', grows, right_first⟩ := first m coherent
  obtain ⟨coherent'', grows', right_second⟩ := second (op.run m).1 (op.run m).2 coherent'
  refine ⟨coherent'', grows.trans grows', fun later coherent_later grows_later => ?_⟩
  exact right_second later coherent_later grows_later
    (right_first later coherent_later (grows'.trans grows_later))

protected theorem map {right' : Memory → β → Prop} (settles : h.Settles op right) (f : α → β)
    (maps : ∀ m a, right m a → right' m (f a)) : h.Settles (do return f (← op)) right' :=
  settles.bind fun a => .pure fun m _ => maps m a

protected theorem mono {right' : Memory → α → Prop} (settles : h.Settles op right)
    (weaker : ∀ m a, m.Coherent h → right m a → right' m a) : h.Settles op right' := by
  intro m coherent
  obtain ⟨coherent', grows, holds⟩ := settles m coherent
  exact ⟨coherent', grows, fun later coherent_later grows_later =>
    weaker later _ coherent_later (holds later coherent_later grows_later)⟩

/-- A result may be stored where what is stored is right. -/
protected theorem store {keep : α → Memory → Memory} (settles : h.Settles op right)
    (keeps : ∀ m a, m.Coherent h → right m a → (keep a m).Coherent h ∧ m.GrowsTo (keep a m)) :
    h.Settles (do let a ← op; modify (keep a); return a) right := by
  intro m coherent
  obtain ⟨coherent', grows, holds⟩ := settles m coherent
  obtain ⟨coherent'', grows'⟩ := keeps _ _ coherent' (holds _ coherent' (.refl _))
  exact ⟨coherent'', grows.trans grows', fun later coherent_later grows_later =>
    holds later coherent_later (grows'.trans grows_later)⟩

end Settles

end Hierarchy

end NameResolution
