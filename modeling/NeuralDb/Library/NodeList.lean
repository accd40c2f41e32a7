import Mathlib.Data.List.Nodup
import Mathlib.Tactic.Common

/-! A doubly linked list seen from outside: values in nodes that keep their identity, so that an iterator
designates its node wherever the node is in the list, until the node is erased. -/

namespace NeuralDb.Library

/-- The nodes from front to back, each with its identity. No identity is ever used twice. -/
structure NodeList (α : Type) where
  nodes : List (Nat × α)
  next : Nat
  nodup : (nodes.map Prod.fst).Nodup
  fresh : ∀ n ∈ nodes, n.1 < next

namespace NodeList

variable {α : Type}

theorem nodup_nil : (([] : List (Nat × α)).map Prod.fst).Nodup := List.nodup_nil

theorem fresh_nil : ∀ n ∈ ([] : List (Nat × α)), n.1 < 0 := fun _ hn => absurd hn List.not_mem_nil

def empty : NodeList α := ⟨[], 0, nodup_nil, fresh_nil⟩

def values (l : NodeList α) : List α := l.nodes.map Prod.snd

/-- The iterator `it` designates a node with the value `a`. -/
def Designates (l : NodeList α) (it : Nat) (a : α) : Prop := (it, a) ∈ l.nodes

/-- The iterator to the first node; `next` stands for the one past the end. -/
def front (l : NodeList α) : Nat := (l.nodes.head?.map Prod.fst).getD l.next

def back (l : NodeList α) : Option α := l.nodes.getLast?.map Prod.snd

theorem nodup_pushFront (l : NodeList α) (a : α) : (((l.next, a) :: l.nodes).map Prod.fst).Nodup := by
  refine List.nodup_cons.mpr ⟨fun hmem => ?_, l.nodup⟩
  obtain ⟨n, hn, heq⟩ := List.mem_map.mp hmem
  exact absurd (l.fresh n hn) (heq ▸ Nat.lt_irrefl _)

theorem fresh_pushFront (l : NodeList α) (a : α) : ∀ n ∈ (l.next, a) :: l.nodes, n.1 < l.next + 1 := by
  intro n hn
  rcases List.mem_cons.mp hn with rfl | hn
  · exact Nat.lt_succ_self _
  · exact Nat.lt_succ_of_lt (l.fresh n hn)

def pushFront (l : NodeList α) (a : α) : NodeList α :=
  ⟨(l.next, a) :: l.nodes, l.next + 1, l.nodup_pushFront a, l.fresh_pushFront a⟩

theorem nodup_sub (l : NodeList α) {ns : List (Nat × α)} (h : ns.Sublist l.nodes) :
    (ns.map Prod.fst).Nodup := (h.map Prod.fst).nodup l.nodup

theorem fresh_sub (l : NodeList α) {ns : List (Nat × α)} (h : ns.Sublist l.nodes) : ∀ n ∈ ns, n.1 < l.next :=
  fun n hn => l.fresh n (h.subset hn)

def popBack (l : NodeList α) : NodeList α :=
  ⟨l.nodes.dropLast, l.next, l.nodup_sub (List.dropLast_sublist _), l.fresh_sub (List.dropLast_sublist _)⟩

/-- Erasing through an iterator is undefined when its node is not in the list. -/
def erase (l : NodeList α) (it : Nat) : Option (NodeList α) :=
  if it ∈ l.nodes.map Prod.fst then
    some ⟨l.nodes.eraseP fun n => n.1 == it, l.next, l.nodup_sub List.eraseP_sublist,
      l.fresh_sub List.eraseP_sublist⟩
  else none

@[simp] theorem values_empty : (empty : NodeList α).values = [] := rfl

@[simp] theorem values_pushFront (l : NodeList α) (a : α) : (l.pushFront a).values = a :: l.values := rfl

@[simp] theorem values_popBack (l : NodeList α) : l.popBack.values = l.values.dropLast := List.map_dropLast

theorem back_eq (l : NodeList α) : l.back = l.values.getLast? := List.getLast?_map.symm

theorem designates_pushFront (l : NodeList α) (a : α) : (l.pushFront a).Designates (l.pushFront a).front a :=
  List.mem_cons_self

theorem Designates.pushFront {l : NodeList α} {it : Nat} {a : α} (h : l.Designates it a) (b : α) :
    (l.pushFront b).Designates it a := List.mem_cons_of_mem _ h

/-- A node stays where it is while its value is not at the back. -/
theorem Designates.popBack {l : NodeList α} {it : Nat} {a : α} (h : l.Designates it a)
    (ha : a ∈ l.values.dropLast) (hnodup : l.values.Nodup) : l.popBack.Designates it a := by
  rcases List.eq_nil_or_concat l.nodes with hnil | ⟨ns, last, hns⟩
  · exact absurd h (by rw [Designates, hnil]; exact List.not_mem_nil)
  · rw [List.concat_eq_append] at hns
    have hvalues : l.values = ns.map Prod.snd ++ [last.2] := by rw [values, hns, List.map_append]; rfl
    rw [hvalues, List.dropLast_concat] at ha
    rw [hvalues] at hnodup
    change (it, a) ∈ l.nodes.dropLast
    rw [Designates, hns] at h
    rw [hns, List.dropLast_concat]
    refine (List.mem_append.mp h).resolve_right fun hlast => ?_
    obtain rfl := List.mem_singleton.mp hlast
    exact (List.nodup_append.mp hnodup).2.2 a ha a (List.mem_singleton_self a) rfl

/-- Erasing through a good iterator takes its value out and leaves the other nodes alone. -/
theorem Designates.erase [DecidableEq α] {l : NodeList α} {it : Nat} {a : α} (h : l.Designates it a)
    (hnodup : l.values.Nodup) :
    ∃ l', l.erase it = some l' ∧ l'.values = l.values.erase a ∧ l'.next = l.next ∧
      ∀ it' b, b ≠ a → l.Designates it' b → l'.Designates it' b := by
  obtain ⟨before, after, hsplit⟩ := List.append_of_mem h
  have hids := l.nodup
  rw [hsplit, List.map_append, List.map_cons] at hids
  have hvalues : l.values = before.map Prod.snd ++ a :: after.map Prod.snd := by
    rw [values, hsplit, List.map_append, List.map_cons]
  have hit : ∀ n ∈ before, ¬ (n.1 == it) = true := by
    intro n hn heq
    exact (List.nodup_append.mp hids).2.2 n.1 (List.mem_map_of_mem hn) it List.mem_cons_self (beq_iff_eq.mp heq)
  have herase : l.nodes.eraseP (fun n => n.1 == it) = before ++ after := by
    rw [hsplit, List.eraseP_append_right _ hit, List.eraseP_cons_of_pos (by simp)]
  rw [hvalues] at hnodup
  have ha : a ∉ before.map Prod.snd :=
    fun hmem => (List.nodup_append.mp hnodup).2.2 a hmem a List.mem_cons_self rfl
  refine ⟨_, if_pos (List.mem_map_of_mem h), ?_, rfl, fun it' b hb hin => ?_⟩
  · change (l.nodes.eraseP _).map Prod.snd = _
    rw [herase, hvalues, List.map_append, List.erase_append_right _ ha, List.erase_cons_head]
  · change (it', b) ∈ l.nodes.eraseP _
    rw [Designates, hsplit] at hin
    rw [herase, List.mem_append]
    rcases List.mem_append.mp hin with hin | hin
    · exact .inl hin
    · rcases List.mem_cons.mp hin with heq | hin
      · exact absurd (Prod.mk.inj heq).2 hb
      · exact .inr hin

end NodeList

end NeuralDb.Library
