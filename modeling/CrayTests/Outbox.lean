import Mathlib.Tactic

/-!
# An output buffer in front of an append-only file

Text is added to a buffer that may send any part of what it holds on the way. A `send` call
outputs the pending text and leaves it pending, so text sent by such a call is output again
later. The text of a box is what was sent followed by what is pending.
-/

namespace Outbox

variable {α : Type*}

structure Box (α : Type*) where
  sent : List α
  pending : List α

def Box.text (b : Box α) : List α := b.sent ++ b.pending

inductive Call (α : Type*)
  | add (xs : List α)
  | send

def Call.text : Call α → List α
  | .add xs => xs
  | .send => []

def added (calls : List (Call α)) : List α := calls.flatMap Call.text

/-- An added text follows the text of the box; a sent one stays pending. -/
def Step (b : Box α) : Call α → Box α → Prop
  | .add xs, b' => b.sent <+: b'.sent ∧ b'.text = b.text ++ xs
  | .send, b' => b' = ⟨b.sent ++ b.pending, b.pending⟩

/-- A step after which nothing is pending had nothing to send. -/
def KeepStep (b : Box α) (c : Call α) (b' : Box α) : Prop :=
  Step b c b' ∧ (b'.pending = [] → b.pending = [] ∧ c.text = [])

inductive Steps (step : Box α → Call α → Box α → Prop) (b : Box α) :
    List (Call α) → Box α → Prop
  | nil : Steps step b [] b
  | snoc {calls : List (Call α)} {c : Call α} {m b' : Box α} :
      Steps step b calls m → step m c b' → Steps step b (calls ++ [c]) b'

def NoResend (calls : List (Call α)) : Prop :=
  ∀ pre post, calls = pre ++ .send :: post → added pre = []

variable {step : Box α → Call α → Box α → Prop} {b b' m : Box α} {calls : List (Call α)}
  {c : Call α}

@[simp] theorem added_nil : added ([] : List (Call α)) = [] := rfl

@[simp] theorem added_snoc : added (calls ++ [c]) = added calls ++ c.text := by
  simp [added]

theorem NoResend.of_snoc (h : NoResend (calls ++ [c])) : NoResend calls := by
  intro pre post heq
  apply h pre (post ++ [c])
  simp [heq]

theorem noResend_snoc_iff :
    NoResend (calls ++ [c]) ↔ NoResend calls ∧ (c = .send → added calls = []) := by
  constructor
  · intro h
    refine ⟨h.of_snoc, ?_⟩
    rintro rfl
    exact h calls [] rfl
  · rintro ⟨hcalls, hc⟩ pre post heq
    rcases List.eq_nil_or_concat' post with rfl | ⟨post', d, rfl⟩
    · obtain ⟨rfl, hcd⟩ := List.append_inj' heq rfl
      exact hc (by simpa using hcd)
    · have hcut : calls = pre ++ .send :: post' := by
        have := congrArg List.dropLast heq
        rwa [List.dropLast_concat, ← List.cons_append, ← List.append_assoc,
          List.dropLast_concat] at this
      exact hcalls pre post' hcut

theorem Step.append (b : Box α) (xs : List α) : Step b (.add xs) ⟨b.sent, b.pending ++ xs⟩ := by
  simp [Step, Box.text]

theorem Step.flush (b : Box α) : Step b (.add []) ⟨b.sent ++ b.pending, []⟩ := by
  simp [Step, Box.text]

theorem Step.add_trans {xs ys : List α} (h : Step b (.add xs) m) (h' : Step m (.add ys) b') :
    Step b (.add (xs ++ ys)) b' := by
  constructor
  · exact h.1.trans h'.1
  · rw [h'.2, h.2, List.append_assoc]

theorem Step.sent_isPrefix (h : Step b c b') : b.sent <+: b'.sent := by
  cases c with
  | add xs => exact h.1
  | send =>
    rw [show b' = _ from h]
    exact List.prefix_append _ _

theorem Steps.sent_isPrefix (h : Steps Step b calls b') : b.sent <+: b'.sent := by
  induction h with
  | nil => exact List.prefix_rfl
  | snoc _ hstep ih => exact ih.trans hstep.sent_isPrefix

theorem Steps.mono {step' : Box α → Call α → Box α → Prop}
    (hle : ∀ b c b', step b c b' → step' b c b') (h : Steps step b calls b') :
    Steps step' b calls b' := by
  induction h with
  | nil => exact .nil
  | snoc _ hstep ih => exact .snoc ih (hle _ _ _ hstep)

/-- Where text is only sent before any was added, the box holds what was added. -/
theorem Steps.text_eq (h : Steps Step b calls b') (hb : b.pending = [])
    (hc : NoResend calls) : b'.text = b.sent ++ added calls := by
  induction h with
  | nil => simp [Box.text, hb]
  | @snoc calls c m b' hrun hstep ih =>
    have htext := ih hc.of_snoc
    cases c with
    | add xs =>
      rw [hstep.2, htext]
      simp [Call.text]
    | send =>
      have hnone : added calls = [] := (noResend_snoc_iff.mp hc).2 rfl
      have hpending : m.pending = [] := by
        have hlen := hrun.sent_isPrefix.length_le
        have := congrArg List.length htext
        simp only [Box.text, hnone, List.append_nil, List.length_append] at this
        exact List.eq_nil_of_length_eq_zero (by omega)
      rw [show b' = _ from hstep]
      simpa [Box.text, Call.text, hpending] using htext

theorem Steps.added_eq_nil_of_pending (h : Steps KeepStep b calls b')
    (hp : b'.pending = []) : added calls = [] := by
  induction h with
  | nil => rfl
  | snoc _ hstep ih =>
    obtain ⟨hm, hc⟩ := hstep.2 hp
    simp [ih hm, hc]

/-- The box never holds less than what was added, and more once text was sent twice. -/
theorem Steps.length_le (h : Steps KeepStep b calls b') :
    b.sent.length + (added calls).length ≤ b'.text.length ∧
      (¬ NoResend calls → b.sent.length + (added calls).length < b'.text.length) := by
  induction h with
  | nil =>
    constructor
    · simp [Box.text]
    · intro h
      exact absurd (fun pre post heq => by simp at heq) h
  | @snoc calls c m b' hrun hstep ih =>
    obtain ⟨hle, hlt⟩ := ih
    cases c with
    | add xs =>
      have hlen : b'.text.length = m.text.length + xs.length := by
        rw [hstep.1.2, List.length_append]
      have hsame : NoResend (calls ++ [.add xs]) ↔ NoResend calls := by
        simp [noResend_snoc_iff]
      rw [hsame, hlen, added_snoc, List.length_append]
      simp only [Call.text]
      exact ⟨by omega, fun h => by have := hlt h; omega⟩
    | send =>
      have hlen : b'.text.length = m.text.length + m.pending.length := by
        rw [show b' = _ from hstep.1]
        simp [Box.text, Nat.add_assoc]
      rw [hlen, added_snoc, List.length_append]
      simp only [Call.text, List.length_nil]
      refine ⟨by omega, fun h => ?_⟩
      by_cases hcalls : NoResend calls
      · have hadded : added calls ≠ [] := by
          intro hnone
          exact h (noResend_snoc_iff.mpr ⟨hcalls, fun _ => hnone⟩)
        have hpending : m.pending ≠ [] := by
          intro hp
          exact hadded (hrun.added_eq_nil_of_pending hp)
        have := List.length_pos_of_ne_nil hpending
        omega
      · have := hlt hcalls
        omega

theorem Steps.text_eq_iff (h : Steps KeepStep b calls b') (hb : b.pending = []) :
    b'.text = b.sent ++ added calls ↔ NoResend calls := by
  constructor
  · intro heq
    by_contra hc
    have := h.length_le.2 hc
    rw [heq, List.length_append] at this
    omega
  · exact (h.mono fun _ _ _ hstep => hstep.1).text_eq hb

end Outbox
