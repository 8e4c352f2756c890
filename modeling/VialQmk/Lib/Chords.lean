import Mathlib.Combinatorics.SimpleGraph.Coloring.Constructions
import Mathlib.Combinatorics.SimpleGraph.Metric
import Mathlib.Combinatorics.SimpleGraph.Paths

/-!
# Lib.Chords

Chords of the cycles of a bipartite graph.

* `Chorded.exists_square`: in a graph whose long cycles have chords, an edge whose ends are joined around it is on a
  square.
* `no_square`: a long cycle has no square among its own edges.
-/

namespace VialQmk
namespace Lib

open SimpleGraph

variable {V : Type*} {G : SimpleGraph V} {u v x y : V}

def Chorded (G : SimpleGraph V) : Prop :=
  ∀ (v : V) (p : G.Walk v v), p.IsCycle → 6 ≤ p.length → ∃ x ∈ p.support, ∃ y ∈ p.support, G.Adj x y ∧ s(x, y) ∉ p.edges

theorem mem_edges_of_shortest {p : G.Walk u v} (hp : p.length = G.dist u v) {i j : Nat} (hi : i ≤ j)
    (hj : j ≤ p.length) (hadj : G.Adj (p.getVert i) (p.getVert j)) : s(p.getVert i, p.getVert j) ∈ p.edges := by
  have hne : i ≠ j := by
    rintro rfl
    exact G.loopless.irrefl _ hadj
  have hshort : G.dist u v ≤ i + 1 + (p.length - j) := by
    refine (dist_le (((p.take i).append (.cons hadj .nil)).append (p.drop j))).trans ?_
    simp only [Walk.length_append, Walk.take_length, Walk.drop_length, Walk.length_cons, Walk.length_nil]
    omega
  have hj' : j = i + 1 := by omega
  subst hj'
  exact (p.mk_mem_edges_iff_exists).mpr ⟨i, by omega, rfl⟩

def without (G : SimpleGraph V) (C : Set V) (e : Sym2 V) : SimpleGraph V where
  Adj x y := G.Adj x y ∧ x ∈ C ∧ y ∈ C ∧ s(x, y) ≠ e
  symm := ⟨fun x y h => ⟨h.1.symm, h.2.2.1, h.2.1, by rw [Sym2.eq_swap]; exact h.2.2.2⟩⟩
  loopless := ⟨fun x h => G.loopless.irrefl x h.1⟩

theorem without_le {C : Set V} {e : Sym2 V} : without G C e ≤ G := fun _ _ h => h.1

theorem mem_of_mem_support {C : Set V} {e : Sym2 V} {p : (without G C e).Walk u v} (hu : u ∈ C) (hx : x ∈ p.support) :
    x ∈ C := by
  induction p with
  | nil => simpa [List.mem_singleton.mp hx] using hu
  | cons h p ih =>
    rcases List.mem_cons.mp hx with rfl | hx
    · exact hu
    · exact ih h.2.2.1 hx

theorem Chorded.length_lt (hG : Chorded G) {C : Set V} (huv : G.Adj u v) (hu : u ∈ C)
    {p : (without G C s(u, v)).Walk u v} (hp : p.length = (without G C s(u, v)).dist u v) : p.length < 5 := by
  by_contra hlong
  have hedges : (p.mapLe without_le).edges = p.edges := Walk.edges_mapLe_eq_edges without_le p
  have hnot : s(v, u) ∉ p.edges := fun hmem => (p.adj_of_mem_edges hmem).2.2.2 Sym2.eq_swap
  have hcycle : (Walk.cons huv.symm (p.mapLe without_le)).IsCycle := by
    rw [Walk.cons_isCycle_iff, hedges]
    exact ⟨(Walk.isPath_mapLe without_le).mpr (p.isPath_of_length_eq_dist hp), hnot⟩
  obtain ⟨x, hx, y, hy, hxy, hchord⟩ := hG v _ hcycle (by
    rw [Walk.length_cons, Walk.length_mapLe]
    omega)
  have hsupport : ∀ z ∈ (Walk.cons huv.symm (p.mapLe without_le)).support, z ∈ p.support := by
    intro z hz
    rw [Walk.support_cons, Walk.support_mapLe_eq_support, List.mem_cons] at hz
    rcases hz with rfl | hz
    · exact p.end_mem_support
    · exact hz
  rw [Walk.edges_cons, hedges, List.mem_cons, not_or, Sym2.eq_swap (a := v)] at hchord
  have hx' := hsupport x hx
  have hy' := hsupport y hy
  have hadj : (without G C s(u, v)).Adj x y :=
    ⟨hxy, mem_of_mem_support hu hx', mem_of_mem_support hu hy', hchord.1⟩
  obtain ⟨i, rfl, hi⟩ := Walk.mem_support_iff_exists_getVert.mp hx'
  obtain ⟨j, rfl, hj⟩ := Walk.mem_support_iff_exists_getVert.mp hy'
  rcases Nat.le_total i j with hij | hji
  · exact hchord.2 (mem_edges_of_shortest hp hij hj hadj)
  · refine hchord.2 ?_
    have hswap := mem_edges_of_shortest hp hji hi hadj.symm
    rwa [Sym2.eq_swap (a := p.getVert j)] at hswap

theorem Chorded.exists_square (hG : Chorded G) (c : G.Coloring Bool) {C : Set V} (huv : G.Adj u v) (hu : u ∈ C)
    (hr : (without G C s(u, v)).Reachable u v) :
    ∃ x y, (without G C s(u, v)).Adj u x ∧ (without G C s(u, v)).Adj x y ∧ (without G C s(u, v)).Adj y v := by
  obtain ⟨p, hp⟩ := hr.exists_walk_length_eq_dist
  have hlt := hG.length_lt huv hu hp
  have hodd : Odd p.length := by
    have heq : (p.mapLe without_le).length = p.length := Walk.length_mapLe ..
    rw [← heq, c.odd_length_iff_not_congr]
    have hne := c.valid huv
    cases hcu : c u <;> cases hcv : c v <;> simp_all
  have hone : p.length ≠ 1 := by
    intro hone
    have hadj := p.adj_getVert_succ (i := 0) (by omega)
    have hend : p.getVert (0 + 1) = v := by
      have := p.getVert_length
      rwa [hone] at this
    rw [Walk.getVert_zero, hend] at hadj
    exact hadj.2.2.2 rfl
  have hthree : p.length = 3 := by
    obtain ⟨k, hk⟩ := hodd
    omega
  refine ⟨p.getVert 1, p.getVert 2, ?_, p.adj_getVert_succ (by omega), ?_⟩
  · have hadj := p.adj_getVert_succ (i := 0) (by omega)
    rwa [Walk.getVert_zero] at hadj
  · have hadj := p.adj_getVert_succ (i := 2) (by omega)
    have hend := p.getVert_length
    rw [hthree] at hend
    rwa [hend] at hadj

def NextTo (n i j : Nat) : Prop := i + 1 = j ∨ j + 1 = i ∨ (i = 0 ∧ j + 1 = n) ∨ (j = 0 ∧ i + 1 = n)

theorem exists_lt_getVert {p : G.Walk v v} (hpos : 0 < p.length) (hx : x ∈ p.support) :
    ∃ i < p.length, p.getVert i = x := by
  obtain ⟨i, hi, hle⟩ := Walk.mem_support_iff_exists_getVert.mp hx
  rcases Nat.lt_or_eq_of_le hle with hlt | heq
  · exact ⟨i, hlt, hi⟩
  · refine ⟨0, hpos, ?_⟩
    rw [← hi, heq, Walk.getVert_length, Walk.getVert_zero]

theorem nextTo_of_mem_edges {p : G.Walk v v} (hp : p.IsCycle) {i j : Nat} (hi : i < p.length) (hj : j < p.length)
    (h : s(p.getVert i, p.getVert j) ∈ p.edges) : NextTo p.length i j := by
  obtain ⟨t, ht, heq⟩ := p.mk_mem_edges_iff_exists.mp h
  have hinj : ∀ {a b}, a < p.length → b < p.length → p.getVert a = p.getVert b → a = b := by
    intro a b ha hb hab
    refine hp.getVert_injOn' ?_ ?_ hab
    · simp only [Set.mem_ofPred_eq]
      omega
    · simp only [Set.mem_ofPred_eq]
      omega
  have hnext : ∃ t' < p.length, p.getVert t' = p.getVert (t + 1) ∧ (t' = t + 1 ∨ (t' = 0 ∧ t + 1 = p.length)) := by
    rcases Nat.lt_or_eq_of_le (Nat.succ_le_of_lt ht) with hlt | hlast
    · exact ⟨t + 1, hlt, rfl, .inl rfl⟩
    · refine ⟨0, by omega, ?_, .inr ⟨rfl, hlast⟩⟩
      rw [show t + 1 = p.length from hlast, Walk.getVert_length, Walk.getVert_zero]
  obtain ⟨t', ht', hvert, hcase⟩ := hnext
  rw [← hvert, Sym2.eq_iff] at heq
  unfold NextTo
  rcases heq with ⟨hti, htj⟩ | ⟨hti, htj⟩
  · have := hinj ht hi hti
    have := hinj ht' hj htj
    omega
  · have := hinj ht hj hti
    have := hinj ht' hi htj
    omega

theorem no_square {p : G.Walk v v} (hp : p.IsCycle) (hlong : 6 ≤ p.length) {a b c d : V} (hac : a ≠ c) (hbd : b ≠ d)
    (hab : s(a, b) ∈ p.edges) (hbc : s(b, c) ∈ p.edges) (hcd : s(c, d) ∈ p.edges) (hda : s(d, a) ∈ p.edges) : False := by
  have hpos : 0 < p.length := by omega
  obtain ⟨i, hi, rfl⟩ := exists_lt_getVert hpos (p.fst_mem_support_of_mem_edges hab)
  obtain ⟨j, hj, rfl⟩ := exists_lt_getVert hpos (p.fst_mem_support_of_mem_edges hbc)
  obtain ⟨k, hk, rfl⟩ := exists_lt_getVert hpos (p.fst_mem_support_of_mem_edges hcd)
  obtain ⟨l, hl, rfl⟩ := exists_lt_getVert hpos (p.fst_mem_support_of_mem_edges hda)
  have hij := nextTo_of_mem_edges hp hi hj hab
  have hjk := nextTo_of_mem_edges hp hj hk hbc
  have hkl := nextTo_of_mem_edges hp hk hl hcd
  have hli := nextTo_of_mem_edges hp hl hi hda
  have hik : i ≠ k := fun h => hac (h ▸ rfl)
  have hjl : j ≠ l := fun h => hbd (h ▸ rfl)
  unfold NextTo at hij hjk hkl hli
  omega

end Lib
end VialQmk
