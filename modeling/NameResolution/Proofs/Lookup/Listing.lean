import NameResolution.Proofs.Lookup.Places
import NameResolution.Proofs.Lookup.Transcript

/-!
# Listings and single lookups

The listing of a context shows under each name what the name alone is resolved to, or the first
candidate where the resolution is a tie.

## Main definitions

* `Listing.Shows` — a listing shows a name as it is resolved.

## Main statements

* `Hierarchy.constants_show_resolve` — in any run of queries, whichever of the two is asked first.
-/

namespace NameResolution

/-- The listing shows the name as it is resolved. -/
structure Listing.Shows (listing : Listing) (name : String) (r : Resolution) : Prop where
  /-- It is left out exactly when it means nothing. -/
  absent : name ∉ listing.keys ↔ r = .absent
  found : ∀ c, r = .found c → listing.find? name = some c
  /-- A tie shows its first candidate. -/
  ambiguous : ∀ conflict, r = .ambiguous conflict →
    ∃ c, conflict.candidates.head? = some c ∧ listing.find? name = some c

theorem Listing.shows_of_find?_eq {listing : Listing} {name : String} {r : Resolution}
    (shown : listing.find? name = r.first?)
    (several : ∀ conflict, r = .ambiguous conflict → 2 ≤ conflict.candidates.length) :
    listing.Shows name r := by
  have missing : name ∉ listing.keys ↔ listing.find? name = none := by
    rw [OrderedMap.mem_keys_iff, Option.not_isSome_iff_eq_none]
  cases r with
  | absent => exact ⟨by simp [missing, shown, Resolution.first?], nofun, nofun⟩
  | found c =>
    refine ⟨by simp [missing, shown, Resolution.first?], fun d same => ?_, nofun⟩
    cases same
    exact shown
  | ambiguous conflict =>
    obtain ⟨c, first⟩ : ∃ c, conflict.candidates.head? = some c := by
      have two := several conflict rfl
      cases candidates : conflict.candidates with
      | nil => simp [candidates] at two
      | cons c rest => exact ⟨c, rfl⟩
    have shown : listing.find? name = some c := shown.trans first
    refine ⟨by simp [missing, shown], nofun, fun other same => ?_⟩
    cases same
    exact ⟨c, first, shown⟩

namespace Environment

variable {env : Environment} {name : String} {spaces : List Namespace}

/-- A tie is between several candidates of one namespace. -/
theorem exists_candidates_of_judge {conflict : Ambiguity}
    (tied : env.judge name spaces = .ambiguous conflict) :
    ∃ ns ∈ spaces, conflict = ⟨name, (env.table ns).candidates name⟩ ∧
      2 ≤ ((env.table ns).candidates name).length := by
  have present : env.judge name spaces ≠ .absent := by simp [tied]
  obtain ⟨ns, mem, said⟩ := exists_lookup_eq_judge present
  exact ⟨ns, mem, Resolution.ofCandidates_eq_ambiguous_iff.1 (said.trans tied)⟩

end Environment

namespace Hierarchy

theorem panorama_shows_judge (h : Hierarchy) (name : String) (scopes : List Scope) :
    (h.panorama scopes).Shows name
      (h.environment.judge name (scopes.flatMap (h.places name))) := by
  refine Listing.shows_of_find?_eq ?_ fun conflict tied => ?_
  · rw [find?_panorama, decision_eq_judge]
  · obtain ⟨ns, -, rfl, several⟩ := Environment.exists_candidates_of_judge tied
    exact several

/-- The constants of a context and the meaning of a bare name in it agree in every run of queries
that asks for both, in whatever order and with whatever queries before, between and after them. -/
theorem constants_show_resolve {decls : List Declaration} {env : Environment}
    (built : Environment.Built decls env) (builtins : Builtins) (queries : List Query)
    (context : Context) (name : String) {listed resolved : Answer}
    (asked_listing : (.constants context, listed) ∈ transcript ⟨env, builtins⟩ queries)
    (asked_name : (.resolve name context, resolved) ∈ transcript ⟨env, builtins⟩ queries) :
    ∃ listing r, listed = .listing (some listing) ∧ resolved = .resolution r ∧
      Listing.Shows listing name r := by
  refine ⟨_, _, eq_answer_of_mem_transcript asked_listing,
    eq_answer_of_mem_transcript asked_name, ?_⟩
  rw [resolution_eq_judge built]
  exact panorama_shows_judge _ name _

/-- A tie that is inherited through a cycle, and asked for before the listing. -/
theorem constants_show_resolve_entangled :
    let a := Namespace.root.member "A"
    let x := (Namespace.root.member "B").toNamespace.member "X"
    let tie := .ambiguous ⟨"X", [⟨x, .singleton a, none⟩, ⟨x, .singleton ⟨.root, "B"⟩, none⟩]⟩
    ∃ listing : Listing,
      transcript ⟨.entangled, .standard⟩ [.resolve "X" ⟨[a]⟩, .constants ⟨[a]⟩] =
        [(.resolve "X" ⟨[a]⟩, .resolution tie), (.constants ⟨[a]⟩, .listing (some listing))] ∧
      listing.keys = ["A", "B", "M", "C", "X"] ∧ listing.Shows "X" tie := by
  intro a x tie
  have run : transcript ⟨.entangled, .standard⟩ [.resolve "X" ⟨[a]⟩, .constants ⟨[a]⟩] =
      [(.resolve "X" ⟨[a]⟩, .resolution tie), (.constants ⟨[a]⟩, .listing (some
        ⟨["A", "B", "M", "C"].map (fun n => (n, ⟨⟨.root, n⟩, .singleton ⟨.root, n⟩, none⟩)) ++
          [("X", ⟨x, .singleton a, none⟩)], by decide⟩))] := by
    decide +kernel
  refine ⟨_, run, rfl, ?_⟩
  obtain ⟨listing, r, listed, resolved, shows⟩ := constants_show_resolve
    Environment.built_entangled .standard [.resolve "X" ⟨[a]⟩, .constants ⟨[a]⟩] ⟨[a]⟩ "X"
    (by rw [run]; exact .tail _ (.head _)) (by rw [run]; exact .head _)
  cases listed
  cases resolved
  exact shows

end Hierarchy

end NameResolution
