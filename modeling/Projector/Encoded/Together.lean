import Projector.Encoded.RoleAgreement
import Projector.Lib.Phases

namespace Projector.Encoded
open Lib Projector.Core Compiler

/-- The roles of an encoded compilation, also while their preparation is deferred. -/
def EncodedCompilation.effectiveRoles (e : EncodedCompilation) : RoleState :=
  if e.rolesPrepared then e.roleState else e.roleAxioms.foldl applyRoleAxiom e.roleState

def EncodedCompilation.withRoles (e : EncodedCompilation) : EncodedCompilation :=
  { e with
    roleState := e.effectiveRoles
    rolesPrepared := true }

theorem ensureEncodedRoles_run (e : EncodedCompilation) :
    ensureEncodedRoles e = ⟨[], .ok (), e.withRoles⟩ := by
  obtain ⟨columns, options, batchEdges, assertedTaxonomyOnly, roleState, roots, domains, ranges,
    roleAxioms, anonymousIds, classIris, annotationRoots, ignoredShapes, skippedAxioms,
    nonStringLiteralRenderings, rolesPrepared, statistics⟩ := e
  cases rolesPrepared <;> rfl

/-- The diagnostics of some ignored shapes, of literals that are not text and of skipped axioms. -/
def diagnosticKeys (shapes : List String) (renderings : Nat) (skipped : List String) :
    List DiagnosticKey :=
  shapes.map ignoredShape ++ (List.replicate renderings nonStringLiteral ++ skipped.map skippedAxiom)

/-- A scalar and an encoded compilation on their way from `c₀` and `e₀`: what the encoded one has
counted beforehand is pending. -/
structure Together (c₀ : Compilation) (e₀ : EncodedCompilation) (skipped pending : List String)
    (c : Compilation) (e : EncodedCompilation) : Prop where
  scalar : c = { c₀ with statistics := c.statistics, diagnosticBag := c.diagnosticBag }
  encoded : e = { e₀ with
    roleState := e.roleState
    rolesPrepared := e.rolesPrepared
    statistics := e.statistics
    ignoredShapes := e.ignoredShapes
    nonStringLiteralRenderings := e.nonStringLiteralRenderings }
  roles : e.effectiveRoles = c₀.roleState
  ready : e₀.rolesPrepared = true → e.rolesPrepared = true
  skippedAxioms : c.statistics.skippedAxioms = e.statistics.skippedAxioms
  ignored : e.statistics.ignoredShapes = c.statistics.ignoredShapes + pending.length
  counted : ∃ shapes,
    Dict.Same c.diagnosticBag
      (Dict.tally (diagnosticKeys shapes e.nonStringLiteralRenderings skipped)) ∧
    Dict.Same e.ignoredShapes (Dict.tally (pending ++ shapes))
  skippedCounts : Dict.Same e.skippedAxioms (Dict.tally skipped)

namespace Together
variable {c₀ c : Compilation} {e₀ e : EncodedCompilation} {skipped pending : List String}

theorem lazy_eq (h : Together c₀ e₀ skipped pending c e) : c.lazy = c₀.lazy := by
  rw [h.scalar]

theorem prepared_eq (h : Together c₀ e₀ skipped pending c e) :
    c.rolesPrepared = c₀.rolesPrepared := by
  rw [h.scalar]

theorem roleState_eq (h : Together c₀ e₀ skipped pending c e) : c.roleState = c₀.roleState := by
  rw [h.scalar]

theorem classIris_eq (h : Together c₀ e₀ skipped pending c e) : c.classIris = c₀.classIris := by
  rw [h.scalar]

theorem blankIds_eq (h : Together c₀ e₀ skipped pending c e) : c.blankIds = c₀.blankIds := by
  rw [h.scalar]

theorem domains_eq (h : Together c₀ e₀ skipped pending c e) : c.domains = c₀.domains := by
  rw [h.scalar]

theorem ranges_eq (h : Together c₀ e₀ skipped pending c e) : c.ranges = c₀.ranges := by
  rw [h.scalar]

theorem statistics (h : Together c₀ e₀ skipped [] c e) : e.statistics = c.statistics := by
  have hskipped := h.skippedAxioms
  have hignored := h.ignored
  rw [List.length_nil, Nat.add_zero] at hignored
  generalize e.statistics = encoded at hskipped hignored ⊢
  generalize c.statistics = scalar at hskipped hignored ⊢
  cases encoded
  cases scalar
  cases hskipped
  cases hignored
  rfl

/-- Every compilation that is reached can be started from. -/
theorem rebase (h : Together c₀ e₀ skipped pending c e) : Together c e skipped pending c e where
  scalar := rfl
  encoded := rfl
  roles := h.roles.trans h.roleState_eq.symm
  ready := id
  skippedAxioms := h.skippedAxioms
  ignored := h.ignored
  counted := h.counted
  skippedCounts := h.skippedCounts

/-- Both count the same ignored shape. -/
theorem ignore (h : Together c₀ e₀ skipped pending c e) (name : String) :
    Together c₀ e₀ skipped pending
      { c with
        statistics := c.statistics.ignore
        diagnosticBag := c.diagnosticBag.increment (ignoredShape name) }
      { e with
        statistics := e.statistics.ignore
        ignoredShapes := e.ignoredShapes.increment name } where
  scalar := by
    rw [h.scalar]
  encoded := by
    rw [h.encoded]
  roles := h.roles
  ready := h.ready
  skippedAxioms := h.skippedAxioms
  ignored := by
    have hignored := h.ignored
    simp only [CompileStatistics.ignore]
    omega
  counted := by
    obtain ⟨shapes, hbag, hshapes⟩ := h.counted
    refine ⟨name :: shapes, hbag.count (ignoredShape name), ?_⟩
    exact (hshapes.count name).trans (Dict.tally_of_perm List.perm_middle.symm)
  skippedCounts := h.skippedCounts

/-- The scalar side counts what the encoded side has counted beforehand. -/
theorem settle {name : String} (h : Together c₀ e₀ skipped (name :: pending) c e) :
    Together c₀ e₀ skipped pending
      { c with
        statistics := c.statistics.ignore
        diagnosticBag := c.diagnosticBag.increment (ignoredShape name) } e where
  scalar := by
    rw [h.scalar]
  encoded := h.encoded
  roles := h.roles
  ready := h.ready
  skippedAxioms := h.skippedAxioms
  ignored := by
    have hignored := h.ignored
    rw [List.length_cons] at hignored
    simp only [CompileStatistics.ignore]
    omega
  counted := by
    obtain ⟨shapes, hbag, hshapes⟩ := h.counted
    refine ⟨name :: shapes, hbag.count (ignoredShape name), ?_⟩
    exact hshapes.trans (Dict.tally_of_perm List.perm_middle.symm)
  skippedCounts := h.skippedCounts

theorem rendering (h : Together c₀ e₀ skipped pending c e) :
    Together c₀ e₀ skipped pending
      { c with diagnosticBag := c.diagnosticBag.increment nonStringLiteral }
      { e with nonStringLiteralRenderings := e.nonStringLiteralRenderings + 1 } where
  scalar := by
    rw [h.scalar]
  encoded := by
    rw [h.encoded]
  roles := h.roles
  ready := h.ready
  skippedAxioms := h.skippedAxioms
  ignored := h.ignored
  counted := by
    obtain ⟨shapes, hbag, hshapes⟩ := h.counted
    refine ⟨shapes, (hbag.count nonStringLiteral).trans (Dict.tally_of_perm ?_), hshapes⟩
    unfold diagnosticKeys
    rw [List.replicate_succ, List.cons_append]
    exact List.perm_middle.symm
  skippedCounts := h.skippedCounts

/-- The deferred preparation of the roles is done. -/
theorem withRoles (h : Together c₀ e₀ skipped pending c e) :
    Together c₀ e₀ skipped pending c e.withRoles where
  scalar := h.scalar
  encoded := by
    rw [h.encoded]
    rfl
  roles := h.roles
  ready := fun _ => rfl
  skippedAxioms := h.skippedAxioms
  ignored := h.ignored
  counted := h.counted
  skippedCounts := h.skippedCounts

end Together

section Diagnostics

/-- The row of a diagnostic with its count. -/
def diagnosticRow (item : DiagnosticKey × Nat) : ProjectionDiagnostic :=
  ⟨item.1.code, item.1.message, item.1.severity, item.2, item.1.constructor⟩

theorem ignoredShape_inj : Function.Injective ignoredShape := by
  intro a b h
  exact congrArg DiagnosticKey.constructor h

theorem skippedAxiom_inj : Function.Injective skippedAxiom := by
  intro a b h
  exact congrArg DiagnosticKey.constructor h

/-- The counters of one kind of diagnostic, under its keys. -/
def keyedCounters (key : String → DiagnosticKey) (counters : Dict String Nat) :
    List (DiagnosticKey × Nat) :=
  ((sortOn (fun item => utf8 item.1) counters.items).filter (fun item => item.2 != 0)).map
    (Prod.map key id)

section Keys
variable {shapes skipped : List String} {renderings : Nat}

theorem mem_diagnosticKeys {k : DiagnosticKey} :
    k ∈ diagnosticKeys shapes renderings skipped ↔ (∃ s ∈ shapes, ignoredShape s = k) ∨
      (renderings ≠ 0 ∧ k = nonStringLiteral) ∨ ∃ s ∈ skipped, skippedAxiom s = k := by
  unfold diagnosticKeys
  rw [List.mem_append, List.mem_append, List.mem_map, List.mem_map, List.mem_replicate]

theorem ignoredShape_ne (s : String) : ignoredShape s ≠ nonStringLiteral := by
  intro h
  have hcode : ("MOWL_IGNORED_SHAPE" : String) ≠ "MOWL_NON_STRING_LITERAL_RENDERING" := by decide
  exact hcode (congrArg DiagnosticKey.code h)

theorem skippedAxiom_ne (s : String) : skippedAxiom s ≠ nonStringLiteral := by
  intro h
  have hcode : ("MOWL_SKIPPED_AXIOM" : String) ≠ "MOWL_NON_STRING_LITERAL_RENDERING" := by decide
  exact hcode (congrArg DiagnosticKey.code h)

theorem ignoredShape_ne_skipped (s t : String) : ignoredShape s ≠ skippedAxiom t := by
  intro h
  have hcode : ("MOWL_IGNORED_SHAPE" : String) ≠ "MOWL_SKIPPED_AXIOM" := by decide
  exact hcode (congrArg DiagnosticKey.code h)

theorem count_ignoredShape (s : String) :
    (diagnosticKeys shapes renderings skipped).count (ignoredShape s) = shapes.count s := by
  have hskipped : ignoredShape s ∉ skipped.map skippedAxiom := by
    intro h
    obtain ⟨t, -, ht⟩ := List.mem_map.mp h
    exact ignoredShape_ne_skipped s t ht.symm
  have hrendering : (nonStringLiteral == ignoredShape s) = false :=
    beq_eq_false_iff_ne.mpr (ignoredShape_ne s).symm
  unfold diagnosticKeys
  rw [List.count_append, List.count_append, List.count_map_of_injective _ _ ignoredShape_inj,
    List.count_replicate, hrendering, List.count_eq_zero_of_not_mem hskipped]
  rfl

theorem count_nonStringLiteral :
    (diagnosticKeys shapes renderings skipped).count nonStringLiteral = renderings := by
  have hshapes : nonStringLiteral ∉ shapes.map ignoredShape := by
    intro h
    obtain ⟨t, -, ht⟩ := List.mem_map.mp h
    exact ignoredShape_ne t ht
  have hskipped : nonStringLiteral ∉ skipped.map skippedAxiom := by
    intro h
    obtain ⟨t, -, ht⟩ := List.mem_map.mp h
    exact skippedAxiom_ne t ht
  unfold diagnosticKeys
  rw [List.count_append, List.count_append, List.count_eq_zero_of_not_mem hshapes,
    List.count_replicate_self, List.count_eq_zero_of_not_mem hskipped, Nat.zero_add, Nat.add_zero]

theorem count_skippedAxiom (s : String) :
    (diagnosticKeys shapes renderings skipped).count (skippedAxiom s) = skipped.count s := by
  have hshapes : skippedAxiom s ∉ shapes.map ignoredShape := by
    intro h
    obtain ⟨t, -, ht⟩ := List.mem_map.mp h
    exact ignoredShape_ne_skipped t s ht
  have hrendering : (nonStringLiteral == skippedAxiom s) = false :=
    beq_eq_false_iff_ne.mpr (skippedAxiom_ne s).symm
  unfold diagnosticKeys
  rw [List.count_append, List.count_append, List.count_map_of_injective _ _ skippedAxiom_inj,
    List.count_replicate, hrendering, List.count_eq_zero_of_not_mem hshapes]
  simp only [Bool.false_eq_true, if_false, Nat.zero_add]

theorem mem_keyedCounters {key : String → DiagnosticKey} {counters : Dict String Nat}
    {names : List String} (h : Dict.Same counters (Dict.tally names)) {k : DiagnosticKey} {n : Nat} :
    (k, n) ∈ keyedCounters key counters ↔ ∃ s ∈ names, key s = k ∧ n = names.count s := by
  unfold keyedCounters
  rw [List.mem_map]
  constructor
  · rintro ⟨⟨s, m⟩, hmem, he⟩
    cases he
    obtain ⟨hs, hm⟩ := (Dict.mem_items_tally h).mp (mem_sortOn.mp (List.mem_filter.mp hmem).1)
    exact ⟨s, hs, rfl, hm⟩
  · rintro ⟨s, hs, rfl, rfl⟩
    refine ⟨(s, names.count s), List.mem_filter.mpr ⟨mem_sortOn.mpr ?_, ?_⟩, rfl⟩
    · exact (Dict.mem_items_tally h).mpr ⟨hs, rfl⟩
    · exact bne_iff_ne.mpr (List.count_pos_iff.mpr hs).ne'

theorem keyedCounters_strict {key : String → DiagnosticKey}
    (hkey : ∀ s t, utf8 s < utf8 t → DiagnosticBag.sortKey (key s) < DiagnosticBag.sortKey (key t))
    (counters : Dict String Nat) :
    StrictOn (fun item => DiagnosticBag.sortKey item.1) (keyedCounters key counters) := by
  have hnodup : counters.items.Nodup := List.Nodup.of_map _ (Dict.items_keys_nodup counters)
  have hstrict : StrictOn (fun item : String × Nat => utf8 item.1)
      (sortOn (fun item => utf8 item.1) counters.items) := by
    apply strict_of_sorted_nodup _ (sortOn_sorted _ _)
    · exact (sortOn_perm _ _).nodup_iff.mpr hnodup
    · intro a ha b hb hab
      have hfst := List.inj_on_of_nodup_map (Dict.items_keys_nodup counters)
      exact hfst (mem_sortOn.mp ha) (mem_sortOn.mp hb) (utf8_inj hab)
  unfold keyedCounters StrictOn
  rw [List.pairwise_map]
  apply List.Pairwise.imp _ (List.Pairwise.filter _ hstrict)
  intro a b hab
  exact hkey a.1 b.1 hab

end Keys

section Order

theorem sortKey_lt_of_code {k l : DiagnosticKey} (h : utf8 k.code < utf8 l.code) :
    DiagnosticBag.sortKey k < DiagnosticBag.sortKey l := by
  unfold DiagnosticBag.sortKey
  rw [Prod.Lex.toLex_lt_toLex]
  exact .inl h

/-- Diagnostics that differ in the constructor alone are ordered by it. -/
theorem sortKey_lt_of_constructor {key : String → DiagnosticKey}
    (hcode : ∀ s t, (key s).code = (key t).code) (hmessage : ∀ s t, (key s).message = (key t).message)
    (hseverity : ∀ s t, (key s).severity = (key t).severity) (hname : ∀ s, (key s).constructor = s)
    (s t : String) (h : utf8 s < utf8 t) :
    DiagnosticBag.sortKey (key s) < DiagnosticBag.sortKey (key t) := by
  unfold DiagnosticBag.sortKey
  rw [hcode s t, hmessage s t, hseverity s t, hname, hname]
  simp only [Prod.Lex.toLex_lt_toLex, lt_irrefl, true_and, false_or]
  exact h

end Order

/-- The counted diagnostics, in the order of the encoded compiler. -/
def EncodedCompilation.counters (e : EncodedCompilation) : List (DiagnosticKey × Nat) :=
  keyedCounters ignoredShape e.ignoredShapes ++
    ((if e.nonStringLiteralRenderings = 0 then []
      else [(nonStringLiteral, e.nonStringLiteralRenderings)]) ++
    keyedCounters skippedAxiom e.skippedAxioms)

theorem diagnostics_eq (e : EncodedCompilation) : e.diagnostics = e.counters.map diagnosticRow := by
  unfold EncodedCompilation.diagnostics EncodedCompilation.counters countedRows keyedCounters
  rw [List.map_append, List.map_append, List.map_map, List.map_map, List.append_assoc]
  congr 2
  split <;> rfl

theorem counters_strict (e : EncodedCompilation) :
    StrictOn (fun item => DiagnosticBag.sortKey item.1) e.counters := by
  have hignored : utf8 "MOWL_IGNORED_SHAPE" < utf8 "MOWL_NON_STRING_LITERAL_RENDERING" := by
    decide +kernel
  have hliteral : utf8 "MOWL_NON_STRING_LITERAL_RENDERING" < utf8 "MOWL_SKIPPED_AXIOM" := by
    decide +kernel
  have hleft : ∀ item ∈ keyedCounters ignoredShape e.ignoredShapes,
      item.1.code = "MOWL_IGNORED_SHAPE" := by
    intro item hitem
    obtain ⟨pair, -, rfl⟩ := List.mem_map.mp hitem
    rfl
  have hright : ∀ item ∈ keyedCounters skippedAxiom e.skippedAxioms,
      item.1.code = "MOWL_SKIPPED_AXIOM" := by
    intro item hitem
    obtain ⟨pair, -, rfl⟩ := List.mem_map.mp hitem
    rfl
  have hmiddle : ∀ item ∈ (if e.nonStringLiteralRenderings = 0 then []
      else [(nonStringLiteral, e.nonStringLiteralRenderings)]), item.1 = nonStringLiteral := by
    intro item hitem
    split at hitem
    · cases hitem
    · rw [List.mem_singleton.mp hitem]
  unfold EncodedCompilation.counters StrictOn
  rw [List.pairwise_append, List.pairwise_append]
  refine ⟨?_, ⟨?_, ?_, ?_⟩, ?_⟩
  · apply keyedCounters_strict
    exact sortKey_lt_of_constructor (fun _ _ => rfl) (fun _ _ => rfl) (fun _ _ => rfl) fun _ => rfl
  · split
    · exact List.Pairwise.nil
    · exact List.pairwise_singleton _ _
  · apply keyedCounters_strict
    exact sortKey_lt_of_constructor (fun _ _ => rfl) (fun _ _ => rfl) (fun _ _ => rfl) fun _ => rfl
  · intro a ha b hb
    apply sortKey_lt_of_code
    rw [hmiddle a ha, hright b hb]
    exact hliteral
  · intro a ha b hb
    apply sortKey_lt_of_code
    rw [hleft a ha]
    rcases List.mem_append.mp hb with hb | hb
    · rw [hmiddle b hb]
      exact hignored
    · rw [hright b hb]
      exact hignored.trans hliteral

/-- Once nothing is pending, the diagnostics of the two compilations are the same. -/
theorem Together.diagnostics {c₀ c : Compilation} {e₀ e : EncodedCompilation}
    {skipped : List String} (h : Together c₀ e₀ skipped [] c e) :
    DiagnosticBag.freeze c.diagnosticBag = e.diagnostics := by
  obtain ⟨shapes, hbag, hshapes⟩ := h.counted
  rw [List.nil_append] at hshapes
  have hstrict := counters_strict e
  have hmem : ∀ item, item ∈ c.diagnosticBag.items ↔ item ∈ e.counters := by
    rintro ⟨k, n⟩
    rw [Dict.mem_items_tally hbag, mem_diagnosticKeys]
    unfold EncodedCompilation.counters
    rw [List.mem_append, List.mem_append, mem_keyedCounters hshapes,
      mem_keyedCounters h.skippedCounts]
    constructor
    · rintro ⟨⟨s, hs, rfl⟩ | ⟨hne, rfl⟩ | ⟨s, hs, rfl⟩, rfl⟩
      · exact .inl ⟨s, hs, rfl, count_ignoredShape s⟩
      · rw [count_nonStringLiteral, if_neg hne]
        exact .inr (.inl List.mem_cons_self)
      · exact .inr (.inr ⟨s, hs, rfl, count_skippedAxiom s⟩)
    · rintro (⟨s, hs, rfl, rfl⟩ | hrendered | ⟨s, hs, rfl, rfl⟩)
      · exact ⟨.inl ⟨s, hs, rfl⟩, (count_ignoredShape s).symm⟩
      · split at hrendered
        · cases hrendered
        · rename_i hne
          cases List.mem_singleton.mp hrendered
          exact ⟨.inr (.inl ⟨hne, rfl⟩), count_nonStringLiteral.symm⟩
      · exact ⟨.inr (.inr ⟨s, hs, rfl⟩), (count_skippedAxiom s).symm⟩
  have hperm : c.diagnosticBag.items.Perm e.counters :=
    (List.perm_ext_iff_of_nodup (List.Nodup.of_map _ (Dict.items_keys_nodup c.diagnosticBag))
      hstrict.nodup).mpr hmem
  have hinj : ∀ a ∈ c.diagnosticBag.items, ∀ b ∈ c.diagnosticBag.items,
      DiagnosticBag.sortKey a.1 = DiagnosticBag.sortKey b.1 → a = b := by
    intro a ha b hb hab
    exact List.inj_on_of_nodup_map (Dict.items_keys_nodup c.diagnosticBag) ha hb
      (DiagnosticBag.sortKey_inj hab)
  rw [diagnostics_eq]
  unfold DiagnosticBag.freeze
  rw [sortOn_eq_of_perm hinj hperm, sortOn_of_sorted hstrict.sorted]
  rfl

end Diagnostics

end Projector.Encoded
