import ShaderScope.Table.Defaults

/-!
# Frames of default precisions

The frames of a table are a stack, and each level has the frame at its own height. A
default is set in the frame on top, and looked up in the greatest level that has one.
Floats and integers have defaults of their own, and unsigned integers follow the
signed ones.
-/

namespace ShaderScope

namespace PrecisionFrame

/-- Floats and integers have a default of their own, and unsigned integers follow. -/
theorem get?_set {kind : Kind} (h : kind = .float ∨ kind = .int) (frame : PrecisionFrame)
    (precision : Precision) (other : Kind) :
    (frame.set kind precision).get? other =
      if other = kind ∨ (other = .uint ∧ kind = .int) then some precision
      else frame.get? other := by
  rcases h with rfl | rfl
  · cases other <;> rfl
  · cases other <;> rfl

theorem set_of_no_default {kind : Kind} (hfloat : kind ≠ .float) (hint : kind ≠ .int)
    (frame : PrecisionFrame) (precision : Precision) : frame.set kind precision = frame := by
  cases kind with
  | float => exact absurd rfl hfloat
  | int => exact absurd rfl hint
  | _ => rfl

/-- A default for another kind leaves that of floats, and that of integers, alone. -/
theorem get?_set_of_ne {kind other : Kind} (h : kind = .float ∨ kind = .int) (hne : kind ≠ other)
    (frame : PrecisionFrame) (precision : Precision) :
    (frame.set other precision).get? kind = frame.get? kind := by
  by_cases hother : other = .float ∨ other = .int
  · rw [get?_set hother, if_neg]
    rintro (rfl | ⟨rfl, _⟩)
    · exact hne rfl
    · simp at h
  · obtain ⟨hfloat, hint⟩ := not_or.mp hother
    rw [set_of_no_default hfloat hint]

theorem get?_of_no_default {kind : Kind} (hfloat : kind ≠ .float) (hint : kind ≠ .int)
    (huint : kind ≠ .uint) (frame : PrecisionFrame) : frame.get? kind = none := by
  cases kind with
  | float => exact absurd rfl hfloat
  | int => exact absurd rfl hint
  | uint => exact absurd rfl huint
  | _ => rfl

end PrecisionFrame

namespace Defaults

/-- The frame of a level, counted like the levels from the outermost one. -/
def frameAt? (d : Defaults) (level : Nat) : Option PrecisionFrame :=
  d.frames.reverse[level]?

theorem lt_of_frameAt? {d : Defaults} {level : Nat} {frame : PrecisionFrame}
    (h : d.frameAt? level = some frame) : level < d.frames.length := by
  obtain ⟨hlevel, _⟩ := List.getElem?_eq_some_iff.mp h
  rwa [List.length_reverse] at hlevel

theorem frameAt?_push (d : Defaults) (level : Nat) :
    d.push.frameAt? level =
      if level = d.frames.length then some .empty else d.frameAt? level := by
  unfold frameAt? push
  rw [List.reverse_cons]
  by_cases hlevel : level = d.frames.length
  · simp [hlevel]
  · rw [if_neg hlevel, List.getElem?_append, List.length_reverse]
    split
    · rfl
    · rw [List.getElem?_eq_none (by simp; omega), List.getElem?_eq_none (by simp; omega)]

theorem frameAt?_pop (d : Defaults) (level : Nat) :
    d.pop.frameAt? level =
      if level + 1 < d.frames.length then d.frameAt? level else none := by
  obtain ⟨frames⟩ := d
  unfold frameAt? pop
  cases frames with
  | nil => simp
  | cons frame outer =>
      simp only [List.tail_cons, List.length_cons, List.reverse_cons, Nat.add_lt_add_iff_right]
      split
      · next hlevel => rw [List.getElem?_append_left (by simpa using hlevel)]
      · next hlevel => exact List.getElem?_eq_none (by simpa using hlevel)

theorem frameAt?_set (d : Defaults) (kind : Kind) (precision : Precision) (level : Nat) :
    (d.set kind precision).frameAt? level =
      if level + 1 = d.frames.length then (d.frameAt? level).map (fun f => f.set kind precision)
      else d.frameAt? level := by
  obtain ⟨frames⟩ := d
  unfold frameAt? set
  cases frames with
  | nil => simp
  | cons frame outer =>
      simp only [List.length_cons, List.reverse_cons, Nat.add_right_cancel_iff]
      split
      · next hlevel => simp [hlevel]
      · next hlevel =>
          rw [List.getElem?_append, List.getElem?_append]
          split
          · rfl
          · next houter =>
              rw [List.length_reverse] at houter ⊢
              rw [List.getElem?_eq_none (by simp; omega), List.getElem?_eq_none (by simp; omega)]

theorem length_frames_set (d : Defaults) (kind : Kind) (precision : Precision) :
    (d.set kind precision).frames.length = d.frames.length := by
  unfold set
  split
  · next h => rfl
  · next h => simp [h]

theorem pop_set (d : Defaults) (kind : Kind) (precision : Precision) :
    (d.set kind precision).pop = d.pop := by
  obtain ⟨frames⟩ := d
  cases frames <;> rfl

theorem set_of_no_default {kind : Kind} (hfloat : kind ≠ .float) (hint : kind ≠ .int)
    (d : Defaults) (precision : Precision) : d.set kind precision = d := by
  obtain ⟨frames⟩ := d
  cases frames with
  | nil => rfl
  | cons frame outer =>
      change Defaults.mk (frame.set kind precision :: outer) = _
      rw [frame.set_of_no_default hfloat hint]

/-- A default that is set is the answer from then on, and no other kind but the one
that follows it is answered in another way. -/
theorem get_set {kind : Kind} (h : kind = .float ∨ kind = .int) {d : Defaults}
    (hframes : d.frames ≠ []) (precision : Precision) (other : Kind) :
    (d.set kind precision).get other =
      if other = kind ∨ (other = .uint ∧ kind = .int) then precision else d.get other := by
  obtain ⟨frames⟩ := d
  cases frames with
  | nil => exact absurd rfl hframes
  | cons frame outer =>
      simp only [set, get, List.findSome?_cons, PrecisionFrame.get?_set h]
      by_cases hother : other = kind ∨ (other = .uint ∧ kind = .int)
      · rw [if_pos hother, if_pos hother]
        rfl
      · rw [if_neg hother, if_neg hother]

/-- The default for a kind stands in the greatest level whose frame has one. -/
theorem get_cases (d : Defaults) (kind : Kind) :
    (∃ level frame, d.frameAt? level = some frame ∧ frame.get? kind = some (d.get kind) ∧
      ∀ other outer, level < other → d.frameAt? other = some outer → outer.get? kind = none) ∨
    ((∀ level frame, d.frameAt? level = some frame → frame.get? kind = none) ∧
      d.get kind = .undefined) := by
  unfold get
  cases hfind : d.frames.findSome? (fun frame => frame.get? kind) with
  | none =>
      refine .inr ⟨?_, rfl⟩
      intro level frame hframe
      have hmem := List.mem_of_getElem? hframe
      exact List.findSome?_eq_none_iff.mp hfind frame (List.mem_reverse.mp hmem)
  | some precision =>
      obtain ⟨inner, frame, outer, hframes, hget, hinner⟩ := List.findSome?_eq_some_iff.mp hfind
      have hreverse : d.frames.reverse = outer.reverse ++ frame :: inner.reverse := by
        rw [hframes]
        simp
      refine .inl ⟨outer.length, frame, ?_, hget, ?_⟩
      · rw [frameAt?, hreverse]
        simp
      · intro other above hother habove
        rw [frameAt?, hreverse, List.getElem?_append_right (by simp; omega)] at habove
        obtain ⟨n, hn⟩ : ∃ n, other - outer.reverse.length = n + 1 :=
          ⟨other - outer.length - 1, by simp; omega⟩
        rw [hn, List.getElem?_cons_succ] at habove
        exact hinner above (List.mem_reverse.mp (List.mem_of_getElem? habove))

end Defaults

end ShaderScope
