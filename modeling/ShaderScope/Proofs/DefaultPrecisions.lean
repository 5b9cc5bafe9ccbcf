import Mathlib.Data.List.Induction
import ShaderScope.Proofs.Identities
import ShaderScope.Proofs.PrecisionFrames

/-!
# Default precisions over a run

A default precision belongs to the level that was innermost when it was set, and it
lasts until that level is closed. Levels and frames are two stacks, which are opened
and closed together. Each frame holds what was set last in its level, so that the
default for a kind is the one that was set last in the innermost level that has one.

An undefined precision that has been set is a default like any other, and hides those
of the levels below.
-/

namespace ShaderScope

/-! ## Defaults that a run sets -/

namespace Specifier

variable {ν : Type}

/-- A float or an integer, neither a vector nor a matrix nor an array. -/
def IsSingleNumber (s : Specifier ν) : Prop :=
  (s.kind = .float ∨ s.kind = .int) ∧ s.rows ≤ 1 ∧ s.columns ≤ 1 ∧ s.arrayLength = none

theorem takesDefault_iff (s : Specifier ν) :
    s.takesDefault = true ↔ s.kind.isSampler = true ∨ s.IsSingleNumber := by
  simp [takesDefault, isArray, IsSingleNumber, and_assoc]

end Specifier

namespace Table

variable {table start : Table}

theorem perform_setDefault (table : Table) (s : Specifier Ident) (precision : Precision) :
    table.perform (.setDefault s precision) =
      if s.takesDefault then
        (.defaultSet true, { table with defaults := table.defaults.set s.kind precision })
      else (.defaultSet false, table) := by
  cases htakes : s.takesDefault with
  | false => simp only [perform, setDefaultPrecision?, htakes, Bool.false_eq_true, if_false]
  | true => simp only [perform, setDefaultPrecision?, htakes, if_true]

theorem perform_setDefault_of_single (table : Table) {s : Specifier Ident}
    (h : s.IsSingleNumber) (precision : Precision) :
    table.perform (.setDefault s precision) =
      (.defaultSet true, { table with defaults := table.defaults.set s.kind precision }) := by
  rw [perform_setDefault, if_pos (s.takesDefault_iff.mpr (.inr h))]

/-- Nothing changes for a sampler, and nothing else is accepted. -/
theorem perform_setDefault_of_not_single (table : Table) {s : Specifier Ident}
    (h : ¬ s.IsSingleNumber) (precision : Precision) :
    table.perform (.setDefault s precision) = (.defaultSet s.kind.isSampler, table) := by
  have htakes := s.takesDefault_iff
  rw [perform_setDefault]
  cases hsampler : s.kind.isSampler with
  | true =>
      have hfloat : s.kind ≠ .float := by
        intro hkind
        rw [hkind] at hsampler
        cases hsampler
      have hint : s.kind ≠ .int := by
        intro hkind
        rw [hkind] at hsampler
        cases hsampler
      rw [if_pos (htakes.mpr (.inl hsampler)), Defaults.set_of_no_default hfloat hint]
  | false => rw [if_neg (by simp [htakes, hsampler, h])]

theorem accepted_setDefault_iff (table : Table) (s : Specifier Ident) (precision : Precision) :
    (table.perform (.setDefault s precision)).1 = .defaultSet true ↔ s.takesDefault = true := by
  rw [perform_setDefault]
  split
  · next h => simp [h]
  · next h => simp [h]

/-- The step sets a default precision for the kind and is accepted. -/
def AcceptsDefault (table : Table) (step : Step) (kind : Kind) (precision : Precision) : Prop :=
  ∃ s, step = .act (.setDefault s precision) ∧ s.kind = kind ∧
    (table.perform (.setDefault s precision)).1 = .defaultSet true

theorem AcceptsDefault.current_step {step : Step} {kind : Kind} {precision : Precision}
    (h : table.AcceptsDefault step kind precision) : (table.step step).current = table.current := by
  obtain ⟨s, rfl, _⟩ := h
  rw [step_act, perform_setDefault]
  split <;> rfl

/-- What a step does to the height of the stack of levels and to the defaults. -/
inductive DefaultsEffect (table : Table) (step : Step) (after : Table) : Prop where
  | opened (hcount : after.levels.count = table.levels.count + 1)
      (hdefaults : after.defaults = table.defaults.push)
      (hnone : ∀ kind precision, ¬ table.AcceptsDefault step kind precision)
  | closed (hcount : after.levels.count + 1 = table.levels.count)
      (hdefaults : after.defaults = table.defaults.pop)
      (hnone : ∀ kind precision, ¬ table.AcceptsDefault step kind precision)
  | set (kind : Kind) (precision : Precision)
      (hcount : after.levels.count = table.levels.count)
      (hdefaults : after.defaults = table.defaults.set kind precision)
      (hone : ∀ k p, table.AcceptsDefault step k p ↔ k = kind ∧ p = precision)
  | kept (hcount : after.levels.count = table.levels.count)
      (hdefaults : after.defaults = table.defaults)
      (hnone : ∀ kind precision, ¬ table.AcceptsDefault step kind precision)

theorem not_acceptsDefault {step : Step}
    (h : ∀ s precision, step ≠ .act (.setDefault s precision)) (kind : Kind)
    (precision : Precision) : ¬ table.AcceptsDefault step kind precision := by
  rintro ⟨s, hstep, _⟩
  exact h s precision hstep

theorem defaultsEffect_of_effect {after : Table} {action : Action Ident} {outcome : Outcome Ident}
    (heffect : table.Effect action outcome after) : table.DefaultsEffect (.act action) after := by
  cases heffect with
  | opened => exact .opened (Levels.count_push _) rfl (not_acceptsDefault (by rintro _ _ ⟨⟩))
  | closed hpop =>
      exact .closed (Levels.pop?_eq_some hpop).1 rfl (not_acceptsDefault (by rintro _ _ ⟨⟩))
  | stored hattempt hdeclare =>
      refine .kept (Levels.declare_eq_ok hdeclare).2.1 rfl (not_acceptsDefault ?_)
      rintro s precision ⟨⟩
      cases hattempt
  | refused hattempt _ =>
      refine .kept rfl rfl (not_acceptsDefault ?_)
      rintro s precision ⟨⟩
      cases hattempt
  | edited hat =>
      exact .kept (Levels.count_modifyCurrent _ _ _) rfl (not_acceptsDefault (by rintro _ _ ⟨⟩))
  | @defaultSet s precision htakes =>
      refine .set s.kind precision rfl rfl fun kind p => ?_
      constructor
      · rintro ⟨t, ht, hkind, _⟩
        cases ht
        exact ⟨hkind.symm, rfl⟩
      · rintro ⟨rfl, rfl⟩
        exact ⟨s, rfl, rfl, (table.accepted_setDefault_iff s p).mpr htakes⟩
  | @defaultLeft s precision hleft =>
      refine .kept rfl rfl fun kind p => ?_
      rintro ⟨t, ht, _, haccepted⟩
      cases ht
      rw [accepted_setDefault_iff, hleft] at haccepted
      cases haccepted
  | _ => exact .kept rfl rfl (not_acceptsDefault (by rintro _ _ ⟨⟩))

theorem defaultsEffect_step (table : Table) (step : Step) :
    table.DefaultsEffect step (table.step step) := by
  cases step with
  | act action => exact defaultsEffect_of_effect (table.effect_perform action)
  | alter key change =>
      exact .kept (Levels.count_modifyCurrent _ _ _) rfl (not_acceptsDefault (by rintro _ _ ⟨⟩))

/-! ## The default that was set last -/

/-- At a place of a run a default for the kind is set, in a level that has been open
ever since. -/
structure SetsDefault (start : Table) (steps : List Step) (kind : Kind) (place level : Nat)
    (precision : Precision) : Prop where
  accepts : ∃ step, steps[place]? = some step ∧
    (start.afterSteps (steps.take place)).AcceptsDefault step kind precision
  innermost : (start.afterSteps (steps.take place)).current = level
  stays_open : ∀ n, place ≤ n → level ≤ (start.afterSteps (steps.take n)).current

variable {steps : List Step} {kind : Kind} {place level : Nat} {precision : Precision}

theorem SetsDefault.place_lt (h : start.SetsDefault steps kind place level precision) :
    place < steps.length := by
  obtain ⟨step, hstep, _⟩ := h.accepts
  exact (List.getElem?_eq_some_iff.mp hstep).1

theorem SetsDefault.level_le (h : start.SetsDefault steps kind place level precision) :
    level ≤ (start.afterSteps steps).current := by
  have hopen := h.stays_open steps.length (Nat.le_of_lt h.place_lt)
  rwa [List.take_length] at hopen

/-- One more step may close the level of a default, and it may set another one. -/
theorem setsDefault_snoc {step : Step} :
    start.SetsDefault (steps ++ [step]) kind place level precision ↔
      (start.SetsDefault steps kind place level precision ∧
        level ≤ ((start.afterSteps steps).step step).current) ∨
      (place = steps.length ∧ (start.afterSteps steps).current = level ∧
        (start.afterSteps steps).AcceptsDefault step kind precision) := by
  have hlast : start.afterSteps (steps ++ [step]) = (start.afterSteps steps).step step :=
    afterSteps_append start steps [step]
  have htake : ∀ n ≤ steps.length, (steps ++ [step]).take n = steps.take n :=
    fun n hn => List.take_append_of_le_length hn
  have hbeyond : ∀ n, steps.length < n →
      start.afterSteps ((steps ++ [step]).take n) = (start.afterSteps steps).step step := by
    intro n hn
    rw [List.take_of_length_le (by simp; omega), hlast]
  constructor
  · intro h
    have hplace := h.place_lt
    rw [List.length_append, List.length_singleton] at hplace
    obtain ⟨taken, htaken, haccepts⟩ := h.accepts
    have hinnermost := h.innermost
    rw [htake place (by omega)] at haccepts hinnermost
    rcases Nat.lt_succ_iff_lt_or_eq.mp hplace with hlt | rfl
    · have hlevel := h.level_le
      rw [hlast] at hlevel
      rw [List.getElem?_append_left hlt] at htaken
      refine .inl ⟨⟨⟨taken, htaken, haccepts⟩, hinnermost, ?_⟩, hlevel⟩
      intro n hn
      have hopen := h.stays_open (min n steps.length) (by omega)
      rwa [htake _ (Nat.min_le_right _ _), ← List.take_take, List.take_length] at hopen
    · rw [List.take_length] at haccepts hinnermost
      rw [List.getElem?_concat_length] at htaken
      cases htaken
      exact .inr ⟨rfl, hinnermost, haccepts⟩
  · rintro (⟨h, hlevel⟩ | ⟨rfl, hinnermost, haccepts⟩)
    · have hlt := h.place_lt
      refine ⟨?_, ?_, ?_⟩
      · rw [List.getElem?_append_left hlt, htake place (Nat.le_of_lt hlt)]
        exact h.accepts
      · rw [htake place (Nat.le_of_lt hlt)]
        exact h.innermost
      · intro n hn
        rcases Nat.lt_or_ge steps.length n with hbehind | hbefore
        · rwa [hbeyond n hbehind]
        · rw [htake n hbefore]
          exact h.stays_open n hn
    · have hself := htake steps.length (Nat.le_refl _)
      rw [List.take_length] at hself
      refine ⟨⟨step, List.getElem?_concat_length, ?_⟩, ?_, ?_⟩
      · rwa [hself]
      · rwa [hself]
      · intro n hn
        rcases Nat.lt_or_eq_of_le hn with hbehind | rfl
        · rw [hbeyond n hbehind, haccepts.current_step, hinnermost]
        · rw [hself, hinnermost]

/-- A step that leaves a level open, and sets no default in it, leaves its defaults. -/
theorem setsDefault_snoc_of_not {step : Step} (hlevel : level ≤ ((start.afterSteps steps).step
      step).current) (hnone : (start.afterSteps steps).current = level →
        ¬ (start.afterSteps steps).AcceptsDefault step kind precision) :
    start.SetsDefault (steps ++ [step]) kind place level precision ↔
      start.SetsDefault steps kind place level precision := by
  rw [setsDefault_snoc]
  constructor
  · rintro (⟨h, _⟩ | ⟨_, hinnermost, haccepts⟩)
    · exact h
    · exact absurd haccepts (hnone hinnermost)
  · intro h
    exact .inl ⟨h, hlevel⟩

/-- The default of a level for a kind is the one that was set last, if there is one. -/
def SetLast (start : Table) (steps : List Step) (kind : Kind) (level : Nat) :
    Option Precision → Prop
  | none => ∀ place precision, ¬ start.SetsDefault steps kind place level precision
  | some precision => ∃ place, start.SetsDefault steps kind place level precision ∧
      ∀ other p, start.SetsDefault steps kind other level p → other ≤ place

theorem SetLast.congr {more : List Step} {default : Option Precision}
    (h : start.SetLast steps kind level default)
    (hsets : ∀ place precision, start.SetsDefault more kind place level precision ↔
      start.SetsDefault steps kind place level precision) :
    start.SetLast more kind level default := by
  cases default with
  | none => simpa only [SetLast, hsets] using h
  | some precision => simpa only [SetLast, hsets] using h

/-- Each level has a frame, which holds the defaults that were set last there. -/
structure FramesTrack (start : Table) (steps : List Step) : Prop where
  length : (start.afterSteps steps).defaults.frames.length =
    (start.afterSteps steps).levels.count
  frame : ∀ {kind : Kind}, kind = .float ∨ kind = .int → ∀ level frame,
    (start.afterSteps steps).defaults.frameAt? level = some frame →
      start.SetLast steps kind level (frame.get? kind)

theorem framesTrack_nil (pool : Pool) : (ofPool pool).FramesTrack [] where
  length := rfl
  frame := by
    intro kind hkind level frame hframe
    have hempty : frame = .empty :=
      List.eq_of_mem_replicate (List.mem_reverse.mp (List.mem_of_getElem? hframe))
    have hget : frame.get? kind = none := by
      rcases hkind with rfl | rfl <;> rw [hempty] <;> rfl
    rw [hget]
    rintro place precision ⟨⟨step, hstep, _⟩, _⟩
    cases hstep

/-- Frames are added and removed together with levels. -/
theorem DefaultsEffect.length_frames {step : Step} {after : Table}
    (heffect : table.DefaultsEffect step after)
    (h : table.defaults.frames.length = table.levels.count) :
    after.defaults.frames.length = after.levels.count := by
  cases heffect with
  | opened hcount hdefaults _ =>
      rw [hdefaults, hcount, ← h]
      rfl
  | closed hcount hdefaults _ =>
      rw [hdefaults, Defaults.pop, List.length_tail]
      omega
  | set kind precision hcount hdefaults _ =>
      rw [hdefaults, hcount, Defaults.length_frames_set, h]
  | kept hcount hdefaults _ => rw [hdefaults, hcount, h]

/-- A frame that stays and is not written to holds what was set last in its level. -/
theorem FramesTrack.stays (h : start.FramesTrack steps) (hkind : kind = .float ∨ kind = .int)
    {frame : PrecisionFrame} {step : Step}
    (hframe : (start.afterSteps steps).defaults.frameAt? level = some frame)
    (hlevel : level ≤ ((start.afterSteps steps).step step).levels.current)
    (hnone : (start.afterSteps steps).levels.current = level →
      ∀ p, ¬ (start.afterSteps steps).AcceptsDefault step kind p) :
    start.SetLast (steps ++ [step]) kind level (frame.get? kind) :=
  (h.frame hkind level frame hframe).congr fun _ p =>
    setsDefault_snoc_of_not hlevel fun hinnermost => hnone hinnermost p

/-- One step of the induction over runs. -/
theorem FramesTrack.snoc (h : start.FramesTrack steps) (step : Step) :
    start.FramesTrack (steps ++ [step]) := by
  have hlast : start.afterSteps (steps ++ [step]) = (start.afterSteps steps).step step :=
    afterSteps_append start steps [step]
  have heffect := (start.afterSteps steps).defaultsEffect_step step
  refine ⟨by rw [hlast]; exact heffect.length_frames h.length, ?_⟩
  rw [hlast]
  intro kind hkind level frame hframe
  have hlength := h.length
  have hcurrent := (start.afterSteps steps).levels.current_add_one
  have hcurrent' := ((start.afterSteps steps).step step).levels.current_add_one
  cases heffect with
  | opened hcount hdefaults hnone =>
      rw [hdefaults, Defaults.frameAt?_push] at hframe
      split at hframe
      · next hnew =>
          cases hframe
          have hget : PrecisionFrame.empty.get? kind = none := by
            rcases hkind with rfl | rfl <;> rfl
          rw [hget]
          intro place precision hset
          -- A level that has just been opened was not open before.
          rcases setsDefault_snoc.mp hset with ⟨hset, _⟩ | ⟨_, _, haccepts⟩
          · have hle : level ≤ (start.afterSteps steps).levels.current := hset.level_le
            omega
          · exact hnone _ _ haccepts
      · have hlt := Defaults.lt_of_frameAt? hframe
        exact h.stays hkind hframe (by omega) fun _ p => hnone kind p
  | closed hcount hdefaults hnone =>
      rw [hdefaults, Defaults.frameAt?_pop] at hframe
      split at hframe
      · exact h.stays hkind hframe (by omega) fun _ p => hnone kind p
      · cases hframe
  | set other precision hcount hdefaults hone =>
      rw [hdefaults, Defaults.frameAt?_set] at hframe
      split at hframe
      · next htop =>
          obtain ⟨before, hbefore, rfl⟩ := Option.map_eq_some_iff.mp hframe
          have hinnermost : (start.afterSteps steps).levels.current = level := by omega
          by_cases hother : kind = other
          · subst hother
            rw [PrecisionFrame.get?_set hkind, if_pos (.inl rfl)]
            refine ⟨steps.length, ?_, ?_⟩
            · exact setsDefault_snoc.mpr (.inr ⟨rfl, hinnermost, (hone _ _).mpr ⟨rfl, rfl⟩⟩)
            · intro later p hlater
              have hlt := hlater.place_lt
              rw [List.length_append, List.length_singleton] at hlt
              omega
          · rw [PrecisionFrame.get?_set_of_ne hkind hother]
            exact h.stays hkind hbefore (by omega) fun _ p haccepts =>
              hother ((hone _ _).mp haccepts).1
      · have hlt := Defaults.lt_of_frameAt? hframe
        exact h.stays hkind hframe (by omega) fun _ => by omega
  | kept hcount hdefaults hnone =>
      rw [hdefaults] at hframe
      have hlt := Defaults.lt_of_frameAt? hframe
      exact h.stays hkind hframe (by omega) fun _ p => hnone kind p

theorem framesTrack (pool : Pool) (steps : List Step) : (ofPool pool).FramesTrack steps := by
  induction steps using List.reverseRecOn with
  | nil => exact framesTrack_nil pool
  | append_singleton steps step ih => exact ih.snoc step

/-! ## What a default is -/

/-- The default for a kind has been set in the innermost level where one has been set,
and there it has been set last. -/
def SetInnermost (start : Table) (steps : List Step) (kind : Kind) (precision : Precision) :
    Prop :=
  ∃ place level, start.SetsDefault steps kind place level precision ∧
    ∀ other outer p, start.SetsDefault steps kind other outer p →
      outer ≤ level ∧ (outer = level → other ≤ place)

/-- A default is set in a level that has a frame. -/
theorem FramesTrack.exists_frameAt? (h : start.FramesTrack steps)
    (hset : start.SetsDefault steps kind place level precision) :
    ∃ frame, (start.afterSteps steps).defaults.frameAt? level = some frame := by
  have hcurrent := (start.afterSteps steps).levels.current_add_one
  have hlevel : level ≤ (start.afterSteps steps).levels.current := hset.level_le
  have hlength := h.length
  refine ⟨_, List.getElem?_eq_getElem ?_⟩
  rw [List.length_reverse]
  omega

theorem FramesTrack.defaultPrecision_cases (h : start.FramesTrack steps)
    (hkind : kind = .float ∨ kind = .int) :
    start.SetInnermost steps kind ((start.afterSteps steps).defaultPrecision kind) ∨
      ((∀ place level precision, ¬ start.SetsDefault steps kind place level precision) ∧
        (start.afterSteps steps).defaultPrecision kind = .undefined) := by
  -- A level whose frame has no default for the kind is one where none has been set.
  have hnone : ∀ {place level precision frame},
      (start.afterSteps steps).defaults.frameAt? level = some frame → frame.get? kind = none →
      ¬ start.SetsDefault steps kind place level precision := by
    intro place level precision frame hframe hget
    have hlast := h.frame hkind level frame hframe
    rw [hget] at hlast
    exact hlast place precision
  rcases (start.afterSteps steps).defaults.get_cases kind with
    ⟨level, frame, hframe, hget, habove⟩ | ⟨hmiss, hundefined⟩
  · have hlast := h.frame hkind level frame hframe
    rw [hget] at hlast
    obtain ⟨place, hset, hlatest⟩ := hlast
    refine .inl ⟨place, level, hset, ?_⟩
    intro other outer p hother
    constructor
    · obtain ⟨found, hfound⟩ := h.exists_frameAt? hother
      apply Nat.le_of_not_lt
      intro hlt
      exact hnone hfound (habove outer found hlt hfound) hother
    · rintro rfl
      exact hlatest other p hother
  · refine .inr ⟨?_, hundefined⟩
    intro place level precision hset
    obtain ⟨found, hfound⟩ := h.exists_frameAt? hset
    exact hnone hfound (hmiss level found hfound) hset

theorem defaultPrecision_of_no_default (table : Table) (hfloat : kind ≠ .float)
    (hint : kind ≠ .int) (huint : kind ≠ .uint) : table.defaultPrecision kind = .undefined := by
  have hnone : table.defaults.frames.findSome? (fun frame => frame.get? kind) = none :=
    List.findSome?_eq_none_iff.mpr fun frame _ =>
      frame.get?_of_no_default hfloat hint huint
  rw [defaultPrecision, Defaults.get, hnone]
  rfl

end Table

/-- Default precisions are lexically scoped. After any run from a fresh table there is a
frame for each level, and the innermost level lies as far above the tiers as the run has
scopes open. For floats and for integers, the default is the one that was set last in the
innermost open level where one was set, and it is undefined if there is no such level.
Unsigned integers follow the signed ones, and no other kind has a default.

A default is accepted for samplers and for single floats and integers. It changes
nothing but the innermost frame and, for a number, the answer for its kind. -/
theorem default_precisions_lexically_scoped (pool : Pool) (steps : List Step) :
    let start := Table.ofPool pool
    let table := start.afterSteps steps
    let ledger := Ledger.blank.throughSteps start steps
    table.defaults.frames.length = table.levels.count ∧
    table.current = lastTierLevel + ledger.running.length ∧
    (∀ kind, kind = .float ∨ kind = .int →
      start.SetInnermost steps kind (table.defaultPrecision kind) ∨
      ((∀ place level precision, ¬ start.SetsDefault steps kind place level precision) ∧
        table.defaultPrecision kind = .undefined)) ∧
    table.defaultPrecision .uint = table.defaultPrecision .int ∧
    (∀ kind, kind ≠ .float → kind ≠ .int → kind ≠ .uint →
      table.defaultPrecision kind = .undefined) ∧
    ∀ specifier precision,
      let (outcome, after) := table.perform (.setDefault specifier precision)
      (∃ accepted, outcome = .defaultSet accepted ∧
        (accepted = true ↔ specifier.kind.isSampler = true ∨ specifier.IsSingleNumber)) ∧
      (¬ specifier.IsSingleNumber → after = table) ∧
      (specifier.IsSingleNumber →
        after = { table with defaults := after.defaults } ∧
        after.defaults.pop = table.defaults.pop ∧
        ∀ kind, after.defaultPrecision kind =
          if kind = specifier.kind ∨ (kind = .uint ∧ specifier.kind = .int) then precision
          else table.defaultPrecision kind) := by
  intro start table ledger
  have htrack := Table.framesTrack pool steps
  have hcount : table.levels.count = globalLevel + ledger.running.length :=
    Ledger.count_throughSteps steps rfl
  refine ⟨htrack.length, Levels.current_eq_of_count_eq hcount, fun kind hkind => htrack.defaultPrecision_cases hkind, rfl,
    fun kind => table.defaultPrecision_of_no_default, ?_⟩
  intro specifier precision
  by_cases hsingle : specifier.IsSingleNumber
  · rw [Table.perform_setDefault_of_single table hsingle precision]
    refine ⟨⟨true, rfl, by simp [hsingle]⟩, fun h => absurd hsingle h, fun _ => ⟨rfl, ?_, ?_⟩⟩
    · exact Defaults.pop_set _ _ _
    · have hframes : table.defaults.frames ≠ [] := by
        rw [← List.length_pos_iff, htrack.length]
        exact Nat.lt_of_lt_of_le (by decide) table.levels.globalLevel_le_count
      exact Defaults.get_set hsingle.1 hframes precision
  · rw [Table.perform_setDefault_of_not_single table hsingle precision]
    exact ⟨⟨specifier.kind.isSampler, rfl, by simp [hsingle]⟩, fun _ => rfl,
      fun h => absurd h hsingle⟩

/-- An undefined precision that is set in a scope hides the default outside of it. -/
example :
    let float : Specifier Ident := .scalar .float
    let table := (Table.ofPool Pool.blank).afterSteps [.act (.setDefault float .high),
      .act .openScope, .act (.setDefault float .undefined)]
    table.defaultPrecision .float = .undefined ∧
      (table.step (.act .closeScope)).defaultPrecision .float = .high := by
  decide

end ShaderScope
