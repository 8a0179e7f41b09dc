/-! Choices of two and three members of a list, in the order of their positions. -/

namespace PlanarLP

/-- Every member with every later one, the earlier members' pairs first. -/
def pairs {β : Type} : List β → List (β × β)
  | [] => []
  | x :: xs => xs.map (fun y => (x, y)) ++ pairs xs

/-- Every member with every pair of later ones, the earlier members' triples first. -/
def triples {β : Type} : List β → List (β × β × β)
  | [] => []
  | x :: xs => (pairs xs).map (fun (y, z) => (x, y, z)) ++ triples xs

theorem mem_pairs {β : Type} {x y : β} {l : List β} :
    (x, y) ∈ pairs l ↔ [x, y].Sublist l := by
  induction l with
  | nil => simp [pairs]
  | cons a l ih =>
    rw [pairs, List.mem_append, ih, List.sublist_cons_iff, or_comm]
    refine or_congr Iff.rfl ⟨fun h => ?_, fun ⟨r, hr, hs⟩ => ?_⟩
    · obtain ⟨b, hb, he⟩ := List.mem_map.mp h
      obtain ⟨rfl, rfl⟩ := Prod.mk.inj he
      exact ⟨[b], rfl, List.singleton_sublist.mpr hb⟩
    · obtain ⟨rfl, rfl⟩ := List.cons.inj hr
      exact List.mem_map.mpr ⟨y, List.singleton_sublist.mp hs, rfl⟩

theorem mem_triples {β : Type} {x y z : β} {l : List β} :
    (x, y, z) ∈ triples l ↔ [x, y, z].Sublist l := by
  induction l with
  | nil => simp [triples]
  | cons a l ih =>
    rw [triples, List.mem_append, ih, List.sublist_cons_iff, or_comm]
    refine or_congr Iff.rfl ⟨fun h => ?_, fun ⟨r, hr, hs⟩ => ?_⟩
    · obtain ⟨⟨b, c⟩, hb, he⟩ := List.mem_map.mp h
      obtain ⟨rfl, hbc⟩ := Prod.mk.inj he
      obtain ⟨rfl, rfl⟩ := Prod.mk.inj hbc
      exact ⟨[b, c], rfl, mem_pairs.mp hb⟩
    · obtain ⟨rfl, rfl⟩ := List.cons.inj hr
      exact List.mem_map.mpr ⟨(y, z), mem_pairs.mpr hs, rfl⟩

end PlanarLP
