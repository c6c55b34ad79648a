import CfEngine.Libpromises.EnvContext.ClassDeletion

namespace CfEngine

def StackFrame.isBundle (frame : StackFrame) : Bool :=
  match frame.data with
  | .bundle .. => true
  | _          => false

-- The name that `EvalContextStackFrameAddSoft` stores for a class in the frame of a bundle.
def frameClass (owner : Bundle) (context : CString) : CString :=
  chop ((qualifiedBy (some owner.ns) context).take (cfMaxVarSize - 1)) cfExpandSize

namespace EvalContext

def evalContextStackPushFrame (ctx : EvalContext) (frame : StackFrame) : EvalContext :=
  { ctx with stack := frame :: ctx.stack }

-- The assertions of `LastStackFrameBundle`.
def lastStackFrameBundleAsserts (ctx : EvalContext) : Bool :=
  match (ctx.lastStackFrame 0).map StackFrame.data with
  | some (.bundle ..)      => true
  | some (.body _)         => (ctx.lastStackFrame 1).any (·.data = .promise) ∧
    (ctx.lastStackFrame 2).all StackFrame.isBundle
  | some .promise          => (ctx.lastStackFrame 1).any StackFrame.isBundle
  | some .promiseIteration => (ctx.lastStackFrame 2).any StackFrame.isBundle
  | none                   => false

end EvalContext

-- The operations on the stack. A push is given by what it does to the stack.
inductive StackOp
  | pushBundleFrame (owner : Bundle) (inherits_previous : Bool)
  | pushPromiseFrame
  | pushPromiseIterationFrame
  | popFrame
  | addSoft (context : CString)

namespace StackOp

def IsPush : StackOp → Prop
  | pushBundleFrame .. | pushPromiseFrame | pushPromiseIterationFrame => True
  | popFrame | addSoft _                                              => False

def asserts (ctx : EvalContext) : StackOp → Bool
  | pushBundleFrame ..        => (ctx.lastStackFrame 0).all (·.data = .promiseIteration)
  | pushPromiseFrame          => (ctx.lastStackFrame 0).any StackFrame.isBundle
  | pushPromiseIterationFrame => (ctx.lastStackFrame 0).any (·.data = .promise)
  | popFrame                  => ctx.stack ≠ []
  | addSoft _                 => ctx.stack ≠ []

def run (pcre : CString → CString → Bool) (ctx : EvalContext) : StackOp → Outcome EvalContext
  | pushBundleFrame owner inherits_previous =>
    some <| ctx.evalContextStackPushFrame <| stackFrameNewBundle owner inherits_previous
  | pushPromiseFrame                        =>
    some <| ctx.evalContextStackPushFrame stackFrameNewPromise
  | pushPromiseIterationFrame               =>
    some <| ctx.evalContextStackPushFrame stackFrameNewPromiseIteration
  | popFrame                                => some { ctx with stack := ctx.stack.tail }
  | addSoft context                         => ctx.evalContextStackFrameAddSoft pcre context

end StackOp

-- The classes that have been added to each of the frames, as a record of the run.
structure RecordedStack where
  ctx   : EvalContext
  added : List StringSet

-- Records that a class is added to the innermost bundle.
def recordSoft (context : CString) : List StackFrame → List StringSet → List StringSet
  | frame :: stack, classes :: added =>
    match frame.data with
    | .bundle owner _ _ => insert (frameClass owner context) classes :: added
    | _                 => classes :: recordSoft context stack added
  | _, added                         => added

def StackOp.record (stack : List StackFrame) (added : List StringSet) : StackOp → List StringSet
  | pushBundleFrame .. | pushPromiseFrame | pushPromiseIterationFrame => ∅ :: added
  | popFrame                                                          => added.tail
  | addSoft context                                                   =>
    recordSoft context stack added

-- The run of operations whose assertions hold.
def runStack (pcre : CString → CString → Bool) :
    RecordedStack → List StackOp → Outcome RecordedStack
  | s, []        => some s
  | s, op :: ops =>
    if op.asserts s.ctx then do
      let ctx ← op.run pcre s.ctx
      runStack pcre { ctx, added := op.record s.ctx.stack s.added } ops
    else
      none

-- A class has been added to a frame that is still on the stack, and every frame above it inherits.
def Visible (x : CString) (stack : List StackFrame) (added : List StringSet) : Prop :=
  ∃ i : Nat, (∃ classes : StringSet, added[i]? = some classes ∧ x ∈ classes) ∧
    ∀ j < i, ∃ frame : StackFrame, stack[j]? = some frame ∧ frame.inheritsPrevious = true

-- Each push is followed by its pop.
inductive Balanced : List StackOp → Prop
  | nil : Balanced []
  | add {context ops} : Balanced ops → Balanced (.addSoft context :: ops)
  | nest {op inner ops} : op.IsPush → Balanced inner → Balanced ops →
    Balanced (op :: inner ++ .popFrame :: ops)

-- The frames of bundles, promises and iterations take turns.
inductive Stacked : List StackFrame → Prop
  | nil : Stacked []
  | bundle {stack inherits owner contexts negated} :
    (∀ frame, stack.head? = some frame → frame = stackFrameNewPromiseIteration) → Stacked stack →
    Stacked (⟨inherits, .bundle owner contexts negated⟩ :: stack)
  | promise {stack inherits owner contexts negated} :
    Stacked (⟨inherits, .bundle owner contexts negated⟩ :: stack) →
    Stacked (stackFrameNewPromise :: ⟨inherits, .bundle owner contexts negated⟩ :: stack)
  | iteration {stack} : Stacked (stackFrameNewPromise :: stack) →
    Stacked (stackFrameNewPromiseIteration :: stackFrameNewPromise :: stack)

-- In each frame, a class is found exactly if it has been added to the frame or is inherited.
-- Classes are added to bundles.
def Tracks : List StackFrame → List StringSet → Prop
  | [], []                           => True
  | frame :: stack, classes :: added =>
    Tracks stack added ∧ (frame.isBundle = false → classes = ∅) ∧ ∀ x, x ≠ [] →
      (stackFrameContainsSoftRecursive x (frame :: stack) = true ↔ x ∈ classes ∨
        frame.inheritsPrevious = true ∧ stackFrameContainsSoftRecursive x stack = true)
  | _, _                             => False

section

variable {x : CString} {frame : StackFrame} {stack : List StackFrame} {added : List StringSet}
  {classes : StringSet}

theorem stackFrameContainsSoft_cons_iff :
    stackFrameContainsSoftRecursive x (frame :: stack) = true ↔ x ∈ frame.contexts ∨
      frame.inheritsPrevious = true ∧ stackFrameContainsSoftRecursive x stack = true := by
  simp only [stackFrameContainsSoftRecursive, stackFrameContainsRecursive]
  cases frame.inheritsPrevious <;> simp

theorem visible_cons_iff : Visible x (frame :: stack) (classes :: added) ↔
    x ∈ classes ∨ frame.inheritsPrevious = true ∧ Visible x stack added := by
  constructor
  case mp =>
    intro ⟨i, ⟨a, ha, hx⟩, h⟩
    cases i
    case zero =>
      cases Option.some.inj ha
      exact .inl hx
    case succ i =>
      have ⟨f, hf, hi⟩ := h 0 <| Nat.zero_lt_succ i
      cases Option.some.inj hf
      exact .inr ⟨hi, i, ⟨a, ha, hx⟩, fun j hj => h (j + 1) <| Nat.succ_lt_succ hj⟩
  case mpr =>
    intro h
    cases h
    case inl hx => exact ⟨0, ⟨classes, rfl, hx⟩, nofun⟩
    case inr h =>
      have ⟨hi, i, ha, h⟩ := h
      refine ⟨i + 1, ha, fun j hj => ?_⟩
      cases j
      case zero   => exact ⟨frame, rfl, hi⟩
      case succ j => exact h j <| Nat.lt_of_succ_lt_succ hj

theorem not_visible_nil : ¬Visible x stack [] :=
  fun ⟨_, ⟨_, ha, _⟩, _⟩ => by simp at ha

theorem Tracks.contains_iff_visible (h : Tracks stack added) (hx : x ≠ []) :
    stackFrameContainsSoftRecursive x stack = true ↔ Visible x stack added := by
  induction stack generalizing added
  case nil =>
    cases added
    case cons => exact h.elim
    case nil  => exact iff_of_false (by simp [stackFrameContainsSoftRecursive,
      stackFrameContainsRecursive]) not_visible_nil
  case cons frame stack ih =>
    cases added
    case nil => exact h.elim
    case cons classes added => rw [h.right.right x hx, visible_cons_iff, ih h.left]

theorem StackFrame.contexts_eq_empty (h : frame.isBundle = false) : frame.contexts = ∅ := by
  cases hd : frame.data
  case bundle => simp [isBundle, hd] at h
  all_goals simp [contexts, hd]

-- A frame without classes of its own.
theorem Tracks.push (h : Tracks stack added) (hc : frame.contexts = ∅) :
    Tracks (frame :: stack) (∅ :: added) := by
  refine ⟨h, fun _ => rfl, fun x _ => ?_⟩
  rw [stackFrameContainsSoft_cons_iff, hc]

theorem Tracks.tail (h : Tracks stack added) : Tracks stack.tail added.tail := by
  cases stack
  case nil =>
    cases added
    case nil  => exact h
    case cons => exact h.elim
  case cons =>
    cases added
    case nil  => exact h.elim
    case cons => exact h.left

theorem Tracks.exists_cons (h : Tracks (frame :: stack) added) :
    ∃ classes added', added = classes :: added' := by
  cases added
  case nil  => exact h.elim
  case cons => exact ⟨_, _, rfl⟩

end

section

variable {x context : CString} {pre rest stack : List StackFrame} {added : List StringSet}
  {inherits : Bool} {owner : Bundle} {contexts contexts' negated : StringSet}

-- The frames above the bundle follow suit.
theorem Tracks.recordSoft_append {frame frame' : StackFrame}
    (hp : ∀ f ∈ pre, f.isBundle = false)
    (hb : ∀ {classes}, Tracks (frame :: rest) classes →
      Tracks (frame' :: rest) (recordSoft context (frame :: rest) classes))
    (h : Tracks (pre ++ frame :: rest) added) :
    Tracks (pre ++ frame' :: rest) (recordSoft context (pre ++ frame :: rest) added) := by
  induction pre generalizing added
  case nil => exact hb h
  case cons f pre ih =>
    have ⟨hf, hp⟩ := List.forall_mem_cons.mp hp
    have ⟨classes, added', he⟩ := h.exists_cons
    subst he
    have hr : recordSoft context (f :: pre ++ frame :: rest) (classes :: added') =
        classes :: recordSoft context (pre ++ frame :: rest) added' := by
      cases hd : f.data
      case bundle => simp [StackFrame.isBundle, hd] at hf
      all_goals simp [recordSoft, hd]
    rw [hr, h.right.left hf]
    exact (ih hp h.left).push <| StackFrame.contexts_eq_empty hf

-- The bundle gets the class.
theorem Tracks.recordSoft_insert
    (h : Tracks (⟨inherits, .bundle owner contexts negated⟩ :: rest) added) :
    Tracks (⟨inherits, .bundle owner (insert (frameClass owner context) contexts) negated⟩ :: rest)
      (recordSoft context (⟨inherits, .bundle owner contexts negated⟩ :: rest) added) := by
  have ⟨classes, added', he⟩ := h.exists_cons
  subst he
  refine ⟨h.left, nofun, fun x hx => ?_⟩
  have := h.right.right x hx
  simp only [stackFrameContainsSoft_cons_iff, StackFrame.contexts, Finset.mem_insert] at this ⊢
  rw [or_assoc, this, or_assoc]

-- The bundle does not get the class, which is inherited or empty.
theorem Tracks.recordSoft_skip
    (hx : frameClass owner context = [] ∨ stackFrameContainsSoftRecursive (frameClass owner context)
      (⟨inherits, .bundle owner contexts negated⟩ :: rest) = true)
    (h : Tracks (⟨inherits, .bundle owner contexts negated⟩ :: rest) added) :
    Tracks (⟨inherits, .bundle owner contexts negated⟩ :: rest)
      (recordSoft context (⟨inherits, .bundle owner contexts negated⟩ :: rest) added) := by
  have ⟨classes, added', he⟩ := h.exists_cons
  subst he
  refine ⟨h.left, nofun, fun y hy => ?_⟩
  have hmem := h.right.right y hy
  rw [Finset.mem_insert, or_assoc, ← hmem, iff_or_self]
  intro he
  cases hx
  case inl hx => exact absurd (he.trans hx) hy
  case inr hx => exact he ▸ hx

theorem PromiseFrames.contains_bundle (hp : PromiseFrames pre)
    (h : stackFrameContainsSoftRecursive x (pre ++ stack) = true) :
    stackFrameContainsSoftRecursive x stack = true := by
  cases hp
  case bundle    => exact h
  case promise   => exact h
  case iteration => exact h
  case body      => cases h

theorem Stacked.tail (h : Stacked stack) : Stacked stack.tail := by
  cases h
  case nil            => exact .nil
  case bundle h       => exact h
  case promise h      => exact h
  case iteration h    => exact h

-- A push whose assertion on the last frame holds.
theorem Stacked.pushBundle {pushed : Bool}
    (ha : stack[0]?.all (·.data = .promiseIteration) = true) (h : Stacked stack) :
    Stacked (stackFrameNewBundle owner pushed :: stack) := by
  refine .bundle (fun frame hf => ?_) h
  cases h
  case nil       => cases hf
  case bundle    => simp at ha
  case promise   => simp [stackFrameNewPromise] at ha
  case iteration => exact Option.some.inj hf.symm

theorem Stacked.pushPromise (ha : stack[0]?.any StackFrame.isBundle = true) (h : Stacked stack) :
    Stacked (stackFrameNewPromise :: stack) := by
  cases h
  case nil           => cases ha
  case bundle hf h   => exact .promise <| .bundle hf h
  case promise       => cases ha
  case iteration     => cases ha

theorem Stacked.pushIteration (ha : stack[0]?.any (·.data = .promise) = true) (h : Stacked stack) :
    Stacked (stackFrameNewPromiseIteration :: stack) := by
  cases h
  case nil       => cases ha
  case bundle    => simp at ha
  case promise h => exact .iteration <| .promise h
  case iteration => simp [stackFrameNewPromiseIteration] at ha

-- The three shapes of the upper part of the stack.
theorem Stacked.exists_bundle (h : Stacked stack) (hn : stack ≠ []) :
    ∃ pre inherits owner contexts negated rest, PromiseFrames pre ∧
      (∀ f ∈ pre, f.isBundle = false) ∧
      stack = pre ++ ⟨inherits, .bundle owner contexts negated⟩ :: rest := by
  cases h
  case nil         => contradiction
  case bundle      => exact ⟨[], _, _, _, _, _, .bundle, nofun, rfl⟩
  case promise     => exact ⟨[_], _, _, _, _, _, .promise, by simp [stackFrameNewPromise,
    StackFrame.isBundle], rfl⟩
  case iteration h =>
    cases h
    case promise => exact ⟨[_, _], _, _, _, _, _, .iteration, by simp [stackFrameNewPromise,
      stackFrameNewPromiseIteration, StackFrame.isBundle], rfl⟩

theorem Stacked.congr (h : Stacked (pre ++ ⟨inherits, .bundle owner contexts negated⟩ :: rest))
    (hp : ∀ f ∈ pre, f.isBundle = false) :
    Stacked (pre ++ ⟨inherits, .bundle owner contexts' negated⟩ :: rest) := by
  induction pre
  case nil =>
    cases h
    case bundle hh h => exact .bundle hh h
  case cons f pre ih =>
    have ⟨hf, hp⟩ := List.forall_mem_cons.mp hp
    have ht := ih h.tail hp
    generalize he : f :: pre ++ ⟨inherits, .bundle owner contexts negated⟩ :: rest = stack at h
    cases h
    case nil => cases he
    case bundle =>
      cases he
      cases hf
    case promise =>
      cases pre
      case nil =>
        cases he
        exact .promise ht
      case cons g pre =>
        cases he
        cases (List.forall_mem_cons.mp hp).left
    case iteration =>
      cases pre
      case nil => cases he
      case cons g pre =>
        cases he
        exact .iteration ht

end

namespace EvalContext

variable {pcre : CString → CString → Bool} {ctx ctx' : EvalContext} {context : CString}
  {pre rest : List StackFrame} {inherits : Bool} {owner : Bundle} {contexts negated : StringSet}

-- Either the name of the class is empty or visible already, or the bundle gets it.
theorem evalContextStackFrameAddSoft_spec (hp : PromiseFrames pre)
    (hs : ctx.stack = pre ++ ⟨inherits, .bundle owner contexts negated⟩ :: rest)
    (h : ctx.evalContextStackFrameAddSoft pcre context = some ctx') :
    ((frameClass owner context = [] ∨
        stackFrameContainsSoftRecursive (frameClass owner context) ctx.stack = true) ∧
      ctx'.stack = ctx.stack) ∨
    ctx'.stack = pre ++
      ⟨inherits, .bundle owner (insert (frameClass owner context) contexts) negated⟩ :: rest := by
  have hl : ctx.lastStackFrame pre.length = some ⟨inherits, .bundle owner contexts negated⟩ := by
    simp [lastStackFrame, hs]
  have hu : ctx.updateBundle pre.length (fun _ contexts contexts_negated =>
      (insert (frameClass owner context) contexts, contexts_negated)) = some { ctx with
        stack := pre ++ ⟨inherits, .bundle owner (insert (frameClass owner context) contexts)
          negated⟩ :: rest } := by
    simp [updateBundle, hl, hs]
  have hc : chop ((qualifiedBy (some owner.ns) context).take (cfMaxVarSize - 1)) cfExpandSize =
    frameClass owner context := rfl
  simp only [evalContextStackFrameAddSoft, lastStackFrameBundle_eq hp hs, Option.bind_eq_bind,
    Option.bind_some, Option.bind_none, hl, hc, hu, pure] at h
  split at h
  case isTrue  => cases h
  case isFalse =>
    split at h
    case isTrue he =>
      cases Option.some.inj h
      exact .inl ⟨.inl he, rfl⟩
    case isFalse =>
      split at h
      case isTrue  => cases h
      case isFalse =>
        split at h
        case isTrue hc =>
          cases Option.some.inj h
          exact .inl ⟨.inr hc, rfl⟩
        case isFalse =>
          split at h
          case isTrue  => cases h
          case isFalse => exact .inr <| Option.some.inj h ▸ rfl

-- The innermost bundle is found.
theorem lastStackFrameBundle_of_stacked (h : Stacked ctx.stack) (hn : ctx.stack ≠ []) :
    ctx.lastStackFrameBundleAsserts = true ∧
    ctx.lastStackFrameBundle = ctx.stack.findIdx? StackFrame.isBundle ∧
    ctx.lastStackFrameBundle.isSome = true := by
  generalize hs : ctx.stack = stack at h hn
  cases h
  case nil       => contradiction
  case bundle    => simp [lastStackFrameBundleAsserts, lastStackFrameBundle, lastStackFrame, hs,
    StackFrame.isBundle, List.findIdx?_cons]
  case promise   => simp [lastStackFrameBundleAsserts, lastStackFrameBundle, lastStackFrame, hs,
    StackFrame.isBundle, stackFrameNewPromise, List.findIdx?_cons]
  case iteration h =>
    cases h
    case promise => simp [lastStackFrameBundleAsserts, lastStackFrameBundle, lastStackFrame, hs,
      StackFrame.isBundle, stackFrameNewPromise, stackFrameNewPromiseIteration, List.findIdx?_cons]

end EvalContext

namespace RecordedStack

structure Invariant (s : RecordedStack) : Prop where
  stacked : Stacked s.ctx.stack
  tracks  : Tracks s.ctx.stack s.added

variable {pcre : CString → CString → Bool} {s s' s₁ s₂ : RecordedStack} {op : StackOp}
  {ctx : EvalContext} {ops ops₁ ops₂ : List StackOp}

theorem Invariant.addSoft {context : CString} (h : s.Invariant) (hn : s.ctx.stack ≠ [])
    (hr : s.ctx.evalContextStackFrameAddSoft pcre context = some ctx) :
    (⟨ctx, recordSoft context s.ctx.stack s.added⟩ : RecordedStack).Invariant := by
  have ⟨pre, inherits, owner, contexts, negated, rest, hp, hb, hs⟩ := h.stacked.exists_bundle hn
  have htracks  := hs ▸ h.tracks
  have hstacked := hs ▸ h.stacked
  have hspec := EvalContext.evalContextStackFrameAddSoft_spec hp hs hr
  rw [hs] at hspec
  cases hspec
  case inl hspec =>
    have ⟨hc, he⟩ := hspec
    refine ⟨show Stacked ctx.stack from he ▸ hstacked, ?_⟩
    show Tracks ctx.stack _
    rw [he, hs]
    exact htracks.recordSoft_append hb fun h => h.recordSoft_skip <| hc.imp_right hp.contains_bundle
  case inr he =>
    refine ⟨show Stacked ctx.stack from he ▸ hstacked.congr hb, ?_⟩
    show Tracks ctx.stack _
    rw [he, hs]
    exact htracks.recordSoft_append hb Tracks.recordSoft_insert

theorem Invariant.step (h : s.Invariant) (ha : op.asserts s.ctx = true)
    (hr : op.run pcre s.ctx = some ctx) :
    (⟨ctx, op.record s.ctx.stack s.added⟩ : RecordedStack).Invariant := by
  have ⟨hstacked, htracks⟩ := h
  cases op
  case pushBundleFrame owner inherits =>
    cases Option.some.inj hr
    exact ⟨hstacked.pushBundle ha, htracks.push rfl⟩
  case pushPromiseFrame =>
    cases Option.some.inj hr
    exact ⟨hstacked.pushPromise ha, htracks.push rfl⟩
  case pushPromiseIterationFrame =>
    cases Option.some.inj hr
    exact ⟨hstacked.pushIteration ha, htracks.push rfl⟩
  case popFrame =>
    cases Option.some.inj hr
    exact ⟨hstacked.tail, htracks.tail⟩
  case addSoft context => exact h.addSoft (of_decide_eq_true ha) hr

theorem runStack_cons (h : runStack pcre s (op :: ops) = some s') :
    ∃ ctx, op.asserts s.ctx = true ∧ op.run pcre s.ctx = some ctx ∧
      runStack pcre ⟨ctx, op.record s.ctx.stack s.added⟩ ops = some s' := by
  rw [runStack] at h
  split at h
  case isTrue ha  => exact (Option.bind_eq_some_iff.mp h).imp fun _ h => ⟨ha, h⟩
  case isFalse    => cases h

theorem Invariant.run (h : s.Invariant) (hr : runStack pcre s ops = some s') : s'.Invariant := by
  induction ops generalizing s
  case nil => exact Option.some.inj hr ▸ h
  case cons op ops ih =>
    have ⟨ctx, ha, hop, hr⟩ := runStack_cons hr
    exact ih (h.step ha hop) hr

theorem runStack_append (h : runStack pcre s (ops₁ ++ ops₂) = some s') :
    ∃ s₁, runStack pcre s ops₁ = some s₁ ∧ runStack pcre s₁ ops₂ = some s' := by
  induction ops₁ generalizing s
  case nil => exact ⟨s, rfl, h⟩
  case cons op ops₁ ih =>
    have ⟨ctx, ha, hop, hr⟩ := runStack_cons h
    have ⟨s₁, h₁, h₂⟩ := ih hr
    refine ⟨s₁, ?_, h₂⟩
    rw [runStack, if_pos ha, hop]
    exact h₁

-- What a run with balanced pushes and pops leaves as it is. Below a bundle nothing changes.
structure Restores (s s' : RecordedStack) : Prop where
  inherits : s'.ctx.stack.map StackFrame.inheritsPrevious =
    s.ctx.stack.map StackFrame.inheritsPrevious
  bundles  : s'.ctx.stack.map StackFrame.isBundle = s.ctx.stack.map StackFrame.isBundle
  added    : List.Forall₂ (· ⊆ ·) s.added s'.added
  below    : ∀ i : Nat, (s.ctx.stack.map StackFrame.isBundle)[i]? = some true →
    s'.ctx.stack.drop (i + 1) = s.ctx.stack.drop (i + 1) ∧
    s'.added.drop (i + 1) = s.added.drop (i + 1)

theorem Restores.refl : Restores s s where
  inherits  := rfl
  bundles   := rfl
  added     := List.forall₂_same.mpr fun _ _ => Finset.Subset.refl _
  below _ _ := ⟨rfl, rfl⟩

theorem Restores.trans (h₁ : Restores s s₁) (h₂ : Restores s₁ s₂) : Restores s s₂ where
  inherits   := h₂.inherits.trans h₁.inherits
  bundles    := h₂.bundles.trans h₁.bundles
  added      := List.forall₂_iff_get.mpr <| by
    have ⟨hl₁, ha₁⟩ := List.forall₂_iff_get.mp h₁.added
    have ⟨hl₂, ha₂⟩ := List.forall₂_iff_get.mp h₂.added
    exact ⟨hl₁.trans hl₂, fun i h h' => (ha₁ i h (hl₁ ▸ h)).trans <| ha₂ i (hl₁ ▸ h) h'⟩
  below i hi := by
    have ⟨hs₁, ha₁⟩ := h₁.below i hi
    have ⟨hs₂, ha₂⟩ := h₂.below i <| h₁.bundles ▸ hi
    exact ⟨hs₂.trans hs₁, ha₂.trans ha₁⟩

theorem forall₂_recordSoft {context : CString} {stack : List StackFrame} {added : List StringSet} :
    List.Forall₂ (· ⊆ ·) added (recordSoft context stack added) := by
  have hrefl (added : List StringSet) : List.Forall₂ (· ⊆ ·) added added :=
    List.forall₂_same.mpr fun _ _ => Finset.Subset.refl _
  induction stack generalizing added
  case nil => exact hrefl added
  case cons frame stack ih =>
    cases added
    case nil => exact .nil
    case cons classes added =>
      cases hd : frame.data
      case bundle =>
        simp only [recordSoft, hd]
        exact .cons (Finset.subset_insert _ _) <| hrefl added
      all_goals
        simp only [recordSoft, hd]
        exact .cons (Finset.Subset.refl _) ih

theorem drop_recordSoft {context : CString} {stack : List StackFrame} {added : List StringSet}
    {i : Nat} (h : (stack.map StackFrame.isBundle)[i]? = some true) :
    (recordSoft context stack added).drop (i + 1) = added.drop (i + 1) := by
  induction stack generalizing i added
  case nil => cases h
  case cons frame stack ih =>
    cases added
    case nil => rfl
    case cons classes added =>
      cases hd : frame.data
      case bundle => simp [recordSoft, hd]
      all_goals
        cases i
        case zero   => simp [StackFrame.isBundle, hd] at h
        case succ i => simpa [recordSoft, hd] using ih h

theorem drop_append_bundle {frame frame' : StackFrame} {pre rest : List StackFrame} {i : Nat}
    (hp : ∀ f ∈ pre, f.isBundle = false)
    (h : ((pre ++ frame :: rest).map StackFrame.isBundle)[i]? = some true) :
    (pre ++ frame' :: rest).drop (i + 1) = (pre ++ frame :: rest).drop (i + 1) := by
  induction pre generalizing i
  case nil => rfl
  case cons f pre ih =>
    have ⟨hf, hp⟩ := List.forall_mem_cons.mp hp
    cases i
    case zero   => simp [hf] at h
    case succ i => exact ih hp h

theorem Invariant.restores_addSoft {context : CString} (h : s.Invariant) (hn : s.ctx.stack ≠ [])
    (hr : s.ctx.evalContextStackFrameAddSoft pcre context = some ctx) :
    Restores s ⟨ctx, recordSoft context s.ctx.stack s.added⟩ := by
  have ⟨pre, inherits, owner, contexts, negated, rest, hp, hb, hs⟩ := h.stacked.exists_bundle hn
  cases EvalContext.evalContextStackFrameAddSoft_spec hp hs hr
  case inl hspec =>
    have he := hspec.right
    exact ⟨by rw [he], by rw [he], forall₂_recordSoft, fun i hi => ⟨by rw [he], drop_recordSoft hi⟩⟩
  case inr he =>
    refine ⟨by simp [he, hs], by simp [he, hs, StackFrame.isBundle], forall₂_recordSoft,
      fun i hi => ⟨?_, drop_recordSoft hi⟩⟩
    rw [he, hs]
    exact drop_append_bundle hb <| hs ▸ hi

-- The frame that has been pushed is gone.
theorem Restores.pop {frame : StackFrame}
    (h : Restores ⟨{ s.ctx with stack := frame :: s.ctx.stack }, ∅ :: s.added⟩ s₁) :
    Restores s ⟨{ s₁.ctx with stack := s₁.ctx.stack.tail }, s₁.added.tail⟩ where
  inherits   := by simpa using congrArg List.tail h.inherits
  bundles    := by simpa using congrArg List.tail h.bundles
  added      := by
    have ⟨_, _, _, ht, he⟩ := List.forall₂_cons_left_iff.mp h.added
    exact he ▸ ht
  below i hi := by simpa using h.below (i + 1) hi

theorem run_push (hp : op.IsPush) (h : op.run pcre s.ctx = some ctx) :
    ∃ frame, (⟨ctx, op.record s.ctx.stack s.added⟩ : RecordedStack) =
      ⟨{ s.ctx with stack := frame :: s.ctx.stack }, ∅ :: s.added⟩ := by
  cases op
  case popFrame => exact hp.elim
  case addSoft  => exact hp.elim
  all_goals
    cases Option.some.inj h
    exact ⟨_, rfl⟩

theorem runStack_popFrame (h : runStack pcre s (.popFrame :: ops) = some s') :
    runStack pcre ⟨{ s.ctx with stack := s.ctx.stack.tail }, s.added.tail⟩ ops = some s' := by
  have ⟨ctx, _, hop, hr⟩ := runStack_cons h
  cases Option.some.inj hop
  exact hr

theorem Invariant.restores_balanced (h : s.Invariant) (hb : Balanced ops)
    (hr : runStack pcre s ops = some s') : Restores s s' := by
  induction hb generalizing s s'
  case nil => exact Option.some.inj hr ▸ .refl
  case add ih =>
    have ⟨ctx, ha, hop, hr⟩ := runStack_cons hr
    exact (h.restores_addSoft (of_decide_eq_true ha) hop).trans <| ih (h.step ha hop) hr
  case nest hp _ _ ih₁ ih₂ =>
    have ⟨ctx, ha, hop, hr⟩ := runStack_cons hr
    have ⟨s₁, hr₁, hr₂⟩ := runStack_append hr
    have ⟨frame, he⟩ := run_push hp hop
    have h₁ := h.step ha hop
    have hrestores := ih₁ h₁ hr₁
    have hpop : (⟨{ s₁.ctx with stack := s₁.ctx.stack.tail }, s₁.added.tail⟩ :
      RecordedStack).Invariant := ⟨(h₁.run hr₁).stacked.tail, (h₁.run hr₁).tracks.tail⟩
    exact Restores.pop (he ▸ hrestores) |>.trans <| ih₂ hpop <| runStack_popFrame hr₂

-- The class has been added meanwhile to a frame that has been on the stack all the time.
def AddedBelow (x : CString) (s s' : RecordedStack) : Prop :=
  ∃ i : Nat, ∃ classes classes' : StringSet, s.added[i]? = some classes ∧
    s'.added[i]? = some classes' ∧ x ∉ classes ∧ x ∈ classes'

theorem Restores.visible_iff {x : CString} (h : Restores s s') (hx : ¬AddedBelow x s s') :
    Visible x s'.ctx.stack s'.added ↔ Visible x s.ctx.stack s.added := by
  have hinherits (j : Nat) :
      (∃ frame : StackFrame, s'.ctx.stack[j]? = some frame ∧ frame.inheritsPrevious = true) ↔
      ∃ frame : StackFrame, s.ctx.stack[j]? = some frame ∧ frame.inheritsPrevious = true := by
    have := congrArg (·[j]?) h.inherits
    simp only [List.getElem?_map] at this
    rw [← Option.map_eq_some_iff, this, Option.map_eq_some_iff]
  have ⟨hl, hsub⟩ := List.forall₂_iff_get.mp h.added
  have hadded (i : Nat) : (∃ classes : StringSet, s'.added[i]? = some classes ∧ x ∈ classes) ↔
      ∃ classes : StringSet, s.added[i]? = some classes ∧ x ∈ classes := by
    constructor
    case mp =>
      intro ⟨classes', ha', hm'⟩
      have ⟨hi', _⟩ := List.getElem?_eq_some_iff.mp ha'
      have ha : s.added[i]? = some (s.added.get ⟨i, hl ▸ hi'⟩) := List.getElem?_eq_getElem _
      by_contra hne
      exact hx ⟨i, _, classes', ha, ha', fun hm => hne ⟨_, ha, hm⟩, hm'⟩
    case mpr =>
      intro ⟨classes, ha, hm⟩
      have ⟨hi, he⟩ := List.getElem?_eq_some_iff.mp ha
      have hm' := hsub i hi (hl ▸ hi) (he ▸ hm)
      exact ⟨_, List.getElem?_eq_getElem (hl ▸ hi), hm'⟩
  simp only [Visible, hinherits, hadded]

-- A pop undoes its push, apart from the classes that have been added to the frames below.
theorem Invariant.restores_nest {inner : List StackOp} {x : CString} (h : s.Invariant)
    (hp : op.IsPush) (hb : Balanced inner)
    (hr : runStack pcre s (op :: inner ++ [.popFrame]) = some s') (hx : x ≠ [])
    (hn : ¬AddedBelow x s s') :
    s'.ctx.evalContextStackFrameContainsSoft x = s.ctx.evalContextStackFrameContainsSoft x := by
  have hrestores := h.restores_balanced (.nest hp hb .nil) hr
  rw [Bool.eq_iff_iff]
  exact (h.run hr).tracks.contains_iff_visible hx |>.trans <| hrestores.visible_iff hn |>.trans <|
    (h.tracks.contains_iff_visible hx).symm

-- Nothing is added below a bundle.
theorem Invariant.restores_bundle {inner : List StackOp} {owner : Bundle} {inherits : Bool}
    (h : s.Invariant) (hb : Balanced inner)
    (hr : runStack pcre s (.pushBundleFrame owner inherits :: inner ++ [.popFrame]) = some s') :
    s'.ctx.stack = s.ctx.stack := by
  have ⟨ctx, ha, hop, hr⟩ := runStack_cons hr
  have ⟨s₁, hr₁, hr₂⟩ := runStack_append hr
  have hrestores := (h.step ha hop).restores_balanced hb hr₁
  cases Option.some.inj hop
  have ⟨hs, _⟩ := hrestores.below 0 rfl
  cases Option.some.inj <| runStack_popFrame hr₂
  simpa [EvalContext.evalContextStackPushFrame] using hs

theorem runStack_visibility {ops : List StackOp} (hs : ctx.stack = [])
    (h : runStack pcre ⟨ctx, []⟩ ops = some s) :
    (s.ctx.stack ≠ [] → s.ctx.lastStackFrameBundleAsserts = true ∧
      s.ctx.lastStackFrameBundle = s.ctx.stack.findIdx? StackFrame.isBundle ∧
      s.ctx.lastStackFrameBundle.isSome = true) ∧
    (∀ x, x ≠ [] → (s.ctx.evalContextStackFrameContainsSoft x = true ↔
      Visible x s.ctx.stack s.added)) ∧
    ∀ push inner s', push.IsPush → Balanced inner →
      runStack pcre s (push :: inner ++ [.popFrame]) = some s' →
      (∀ x, x ≠ [] → ¬AddedBelow x s s' →
        s'.ctx.evalContextStackFrameContainsSoft x = s.ctx.evalContextStackFrameContainsSoft x) ∧
      ((∃ owner inherits, push = .pushBundleFrame owner inherits) →
        ∀ x, s'.ctx.evalContextStackFrameContainsSoft x =
          s.ctx.evalContextStackFrameContainsSoft x) := by
  have hnew : (⟨ctx, []⟩ : RecordedStack).Invariant :=
    ⟨show Stacked ctx.stack from hs ▸ .nil, show Tracks ctx.stack [] from hs ▸ trivial⟩
  have hs := hnew.run h
  refine ⟨EvalContext.lastStackFrameBundle_of_stacked hs.stacked,
    fun x hx => hs.tracks.contains_iff_visible hx, fun push inner s' hp hb hr =>
      ⟨fun x hx hn => hs.restores_nest hp hb hr hx hn, fun ⟨owner, inherits, he⟩ x => ?_⟩⟩
  subst he
  simp only [EvalContext.evalContextStackFrameContainsSoft, hs.restores_bundle hb hr]

open EvalContext

-- A bundle in which the class `a` is defined.
def definingA (owner : Bundle) : List StackOp :=
  [.pushBundleFrame owner false, .addSoft ['a']]

-- A promise of a bundle that is called from a promise of another one and inherits its classes.
def callingB : List StackOp :=
  definingA (mainBundle defaultNs) ++
    [.pushPromiseFrame, .pushPromiseIterationFrame, .pushBundleFrame (mainBundle defaultNs) true, .addSoft ['b'],
      .pushPromiseFrame, .pushPromiseIterationFrame]

theorem runStack_visibility_callingB : ∃ s s', runStack (fun _ _ => false) ⟨.new, []⟩ callingB = some s ∧
    runStack (fun _ _ => false) s [.pushBundleFrame (mainBundle defaultNs) false, .addSoft ['c'], .popFrame] =
      some s' ∧
    Visible ['a'] s.ctx.stack s.added ∧ Visible ['b'] s.ctx.stack s.added ∧ ¬Visible ['c'] s.ctx.stack s.added ∧
    ∀ x, s'.ctx.evalContextStackFrameContainsSoft x = s.ctx.evalContextStackFrameContainsSoft x := by
  have hrun : runStack (fun _ _ => false) ⟨.new, []⟩ callingB = some _ := rfl
  have hvisibility := runStack_visibility rfl hrun
  refine ⟨_, _, hrun, rfl, ?_, ?_, ?_, ?_⟩
  · exact (hvisibility.right.left _ <| by decide).mp rfl
  · exact (hvisibility.right.left _ <| by decide).mp rfl
  · exact fun hc => Bool.false_ne_true <| (hvisibility.right.left _ <| by decide).mpr hc
  · exact (hvisibility.right.right (.pushBundleFrame (mainBundle defaultNs) false) [.addSoft ['c']] _ trivial
      (.add .nil) rfl).right ⟨_, _, rfl⟩

-- A class that is defined by a promise stays in the bundle of the promise. A class that is defined
-- in two bundles is visible in the inner one, also if this bundle does not inherit.
theorem not_restores_definingA : ∃ s s' t : RecordedStack,
    runStack (fun _ _ => false) ⟨.new, []⟩ [.pushBundleFrame (mainBundle defaultNs) false] =
      some s ∧
    runStack (fun _ _ => false) s [.pushPromiseFrame, .addSoft ['a'], .popFrame] = some s' ∧
    s.ctx.evalContextStackFrameContainsSoft ['a'] = false ∧
    s'.ctx.evalContextStackFrameContainsSoft ['a'] = true ∧
    runStack (fun _ _ => false) ⟨.new, []⟩ (definingA (mainBundle defaultNs) ++
      [.pushPromiseFrame, .pushPromiseIterationFrame] ++ definingA (mainBundle defaultNs)) =
        some t ∧
    (t.ctx.lastStackFrame 0).map StackFrame.inheritsPrevious = some false ∧
    t.ctx.evalContextStackFrameContainsSoft ['a'] = true :=
  ⟨_, _, _, rfl, rfl, rfl, rfl, rfl, rfl, rfl⟩

end RecordedStack
end CfEngine
