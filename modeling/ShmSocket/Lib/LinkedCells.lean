import Mathlib.Data.List.Nodup
import Mathlib.Logic.Function.Basic

/-! Singly linked lists threaded through an array: `next a` is the cell after `a`,
and `stop` ends a list. -/
namespace LinkedCells
variable {α : Type*} {next : α → α} {stop a b : α} {l l' : List α}

/-- Following the links from `a` visits `l` and then ends in `stop`. -/
def Linked (next : α → α) (stop : α) : α → List α → Prop
  | a, [] => a = stop
  | a, b :: l => a = b ∧ b ≠ stop ∧ Linked next stop (next b) l

theorem Linked.ne_stop (h : Linked next stop a l) (hb : b ∈ l) : b ≠ stop := by
  induction l generalizing a with
  | nil => simp at hb
  | cons c l ih =>
    rcases List.mem_cons.mp hb with rfl | hb
    · exact h.2.1
    · exact ih h.2.2 hb

/-- The links determine the list. -/
theorem Linked.unique (h : Linked next stop a l) (h' : Linked next stop a l') : l = l' := by
  induction l generalizing a l' with
  | nil =>
    cases l' with
    | nil => rfl
    | cons c l' => exact absurd (h'.1.symm.trans h) h'.2.1
  | cons b l ih =>
    cases l' with
    | nil => exact absurd (h.1.symm.trans h') h.2.1
    | cons c l' =>
      obtain rfl : b = c := h.1.symm.trans h'.1
      rw [ih h.2.2 h'.2.2]

/-- A list that ends has no cycle. -/
theorem Linked.nodup (h : Linked next stop a l) : l.Nodup := by
  induction l generalizing a with
  | nil => exact List.nodup_nil
  | cons b l ih =>
    refine List.nodup_cons.mpr ⟨fun hb => ?_, ih h.2.2⟩
    obtain ⟨before, after, rfl⟩ := List.append_of_mem hb
    -- the links from `b` would visit both the whole list and its proper suffix
    have hsuffix : ∀ c, Linked next stop c (before ++ b :: after) →
        Linked next stop b (b :: after) := by
      clear h ih hb
      induction before with
      | nil => exact fun c hc => ⟨rfl, hc.2.1, hc.2.2⟩
      | cons d before ih => exact fun c hc => ih (next d) hc.2.2
    have hwhole : Linked next stop b (b :: (before ++ b :: after)) := ⟨rfl, h.2.1, h.2.2⟩
    have hlen := congrArg List.length (hwhole.unique (hsuffix _ h.2.2))
    simp at hlen
    omega

variable [DecidableEq α]

/-- Storing into a cell outside the list keeps the list. -/
theorem Linked.update (h : Linked next stop a l) (hb : b ∉ l) (v : α) :
    Linked (Function.update next b v) stop a l := by
  induction l generalizing a with
  | nil => exact h
  | cons c l ih =>
    obtain ⟨hne, hnot⟩ := not_or.mp (mt List.mem_cons.mpr hb)
    refine ⟨h.1, h.2.1, ?_⟩
    rw [Function.update_of_ne (Ne.symm hne)]
    exact ih h.2.2 hnot

/-- Linking a cell in front of a list. -/
theorem Linked.push (h : Linked next stop a l) (hb : b ∉ l) (hstop : b ≠ stop) :
    Linked (Function.update next b a) stop b (b :: l) := by
  refine ⟨rfl, hstop, ?_⟩
  rw [Function.update_self]
  exact h.update hb a

end LinkedCells
