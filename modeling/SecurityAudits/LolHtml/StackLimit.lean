import SecurityAudits.LolHtml.TreeBuilder

/-!
# The limited namespace stack against the unlimited one

The limit is tested when a tag requests its lexeme, before the lexeme can tell whether the
tag pushes. The two simulators therefore differ on exactly the start tags that may push on a
full stack (`limit_exact`), among them a self-closing `<desc/>` that would push nothing
(`self_closing_refused`).
-/

namespace SecurityAudits.LolHtml.TreeBuilder
set_option autoImplicit false
open SecurityAudits.Run

variable {Guard TextType : Type} {u : Unshown Guard TextType} {limit : Option Nat}
  {s : Simulator Guard} {c d : Session Guard TextType} {e : Event} {tagName : LocalNameHash}
  {lexeme : Lexeme} {callback : Callback}


/-- `<svg>` or `<math>`, passed by the ambiguity guard. -/
def EntersNs (u : Unshown Guard TextType) (s : Simulator Guard) (tagName : LocalNameHash) : Prop :=
  (u.trackStartTag s.ambiguityGuard tagName).2 = none ∧ (tagName = Tag.svg ∨ tagName = Tag.math)

/-- Any other tag that the guard passes and that does not leave foreign content. -/
structure StaysForeign (u : Unshown Guard TextType) (s : Simulator Guard)
    (tagName : LocalNameHash) : Prop where
  passed : (u.trackStartTag s.ambiguityGuard tagName).2 = none
  not_svg : tagName ≠ Tag.svg
  not_math : tagName ≠ Tag.math
  foreign : s.currentNs ≠ .html
  stays : u.causesForeignContentExit tagName = false

/-- A tag in foreign content whose lexeme decides whether it pushes: an integration point, or
a name without a hash in MathML, possibly an `<annotation-xml>`. -/
def Defers (u : Unshown Guard TextType) (s : Simulator Guard) (tagName : LocalNameHash) :
    Callback → Prop
  | .integrationPoint =>
    StaysForeign u s tagName ∧ u.isIntegrationPointEnter s.currentNs tagName = true
  | .annotationXml =>
    StaysForeign u s tagName ∧ u.isIntegrationPointEnter s.currentNs tagName = false ∧
      tagName = .empty ∧ s.currentNs = .mathML
  | _ => False

/-- A start tag that pushes, or requests a lexeme that may make it push. -/
def MayPush (u : Unshown Guard TextType) (s : Simulator Guard) (tagName : LocalNameHash) : Prop :=
  EntersNs u s tagName ∨ ∃ callback, Defers u s tagName callback

/-- A start tag that may push meets a full stack. -/
def AtLimit (u : Unshown Guard TextType) (s : Simulator Guard) : Event → Prop
  | .startTag tagName => maxNsStackDepth ≤ s.nsStack.length ∧ MayPush u s tagName
  | _ => False

/-- A start tag followed at once by its lexeme, when it requests one. -/
def runStartTag (limit : Option Nat) (u : Unshown Guard TextType) (s : Simulator Guard)
    (tagName : LocalNameHash) (lexeme : Lexeme) : Simulator Guard :=
  match getFeedbackForStartTag limit u s tagName with
  | (t, .ok (.requestLexeme callback)) =>
    (callback.run limit u { t with requested := none } lexeme).1
  | (t, _) => t

/-- The tag really pushes an entry, once its lexeme is known. -/
def Pushes (u : Unshown Guard TextType) (s : Simulator Guard) (tagName : LocalNameHash)
    (lexeme : Lexeme) : Prop :=
  s.nsStack.length < (runStartTag none u s tagName lexeme).nsStack.length

/-- The lexeme keeps its tag from pushing: a self-closing integration point, or a name
without a hash that is no HTML `<annotation-xml>`. -/
def Callback.spares (u : Unshown Guard TextType) (lexeme : Lexeme) : Callback → Bool
  | .integrationPoint => lexeme.selfClosing
  | .annotationXml => !isHtmlAnnotationXml u lexeme
  | _ => true

/-- The tag might have pushed, but its lexeme shows that it does not. -/
def Spared (u : Unshown Guard TextType) (s : Simulator Guard) (tagName : LocalNameHash)
    (lexeme : Lexeme) : Prop :=
  ∃ callback, Defers u s tagName callback ∧ callback.spares u lexeme = true

/-- The simulator after the guard has seen the tag. -/
def tracked (u : Unshown Guard TextType) (s : Simulator Guard) (tagName : LocalNameHash) :
    Simulator Guard :=
  { s with ambiguityGuard := (u.trackStartTag s.ambiguityGuard tagName).1 }

/-- What is left of a start tag that cannot push: the same for every limit. -/
structure Harmless (s : Simulator Guard) (result : Simulator Guard × Answer TextType) : Prop where
  depth : result.1.nsStack.length ≤ s.nsStack.length
  passed : ∀ max, result.2 ≠ .error (.tooDeepFragmentNesting max)
  deferred : ∀ callback, result.2 = .ok (.requestLexeme callback) → callback = .font

theorem leaveNs_length :
    (leaveNs s : _ × TreeBuilderFeedback TextType).1.nsStack.length ≤ s.nsStack.length := by
  unfold leaveNs
  split
  next stack => simp [stack]
  next => exact Nat.le_refl _

theorem harmless_ok {t : Simulator Guard} {feedback : TreeBuilderFeedback TextType}
    (depth : t.nsStack.length ≤ s.nsStack.length)
    (deferred : ∀ callback, feedback = .requestLexeme callback → callback = .font) :
    Harmless s ((t, .ok feedback) : _ × Answer TextType) := by
  refine ⟨depth, ?_, ?_⟩
  · intro max refused
    cases refused
  · intro callback requests
    exact deferred callback (Except.ok.inj requests)

theorem harmless_leaveNs : Harmless s ((leaveNs s).map id .ok : _ × Answer TextType) := by
  refine harmless_ok leaveNs_length ?_
  intro callback requests
  split at requests <;> cases requests

theorem harmless_refused {error : ParsingAmbiguityError}
    (passed : ∀ max, error ≠ .tooDeepFragmentNesting max) :
    Harmless s ((s, .error error) : _ × Answer TextType) := by
  refine ⟨Nat.le_refl _, ?_, ?_⟩
  · intro max refused
    exact passed max (Except.error.inj refused)
  · intro callback requests
    cases requests

theorem harmless_text (textType : Option TextType) :
    Harmless s (s, .ok (textTypeFeedback textType)) := by
  refine harmless_ok (Nat.le_refl _) ?_
  intro callback requests
  cases textType <;> cases requests

theorem harmless_font : Harmless s ((requestLexeme s .font).map id .ok : _ × Answer TextType) := by
  refine harmless_ok (Nat.le_refl _) ?_
  intro callback requests
  cases requests
  rfl

/-- In foreign content the depth check stands right before the two requests that may push. -/
theorem foreign_cases (u : Unshown Guard TextType) (s : Simulator Guard)
    (tagName : LocalNameHash) :
    (∃ callback, (u.causesForeignContentExit tagName = false ∧
        (callback = .integrationPoint ∧ u.isIntegrationPointEnter s.currentNs tagName = true ∨
          callback = .annotationXml ∧ u.isIntegrationPointEnter s.currentNs tagName = false ∧
            tagName = .empty ∧ s.currentNs = .mathML)) ∧
      ∀ limit, getFeedbackForStartTagInForeignContent limit u s tagName =
        requestChecked limit s callback) ∨
    ((u.causesForeignContentExit tagName = true ∨
        u.isIntegrationPointEnter s.currentNs tagName = false ∧
          ¬ (tagName = .empty ∧ s.currentNs = .mathML)) ∧
      ∃ result, Harmless s result ∧
        ∀ limit, getFeedbackForStartTagInForeignContent limit u s tagName = result) := by
  unfold getFeedbackForStartTagInForeignContent
  cases exits : u.causesForeignContentExit tagName with
  | true => exact .inr ⟨.inl rfl, _, harmless_leaveNs, fun _ => rfl⟩
  | false =>
    cases point : u.isIntegrationPointEnter s.currentNs tagName with
    | true => exact .inl ⟨.integrationPoint, ⟨rfl, .inl ⟨rfl, rfl⟩⟩, fun _ => rfl⟩
    | false =>
      by_cases font : tagName = Tag.font
      · refine .inr ⟨.inr ⟨rfl, ?_⟩, _, harmless_font, ?_⟩
        · rintro ⟨unhashed, -⟩
          cases font.symm.trans unhashed
        · intro limit
          simp only [Bool.false_eq_true, if_false, if_pos font]
      by_cases annotation : tagName = .empty ∧ s.currentNs = .mathML
      · refine .inl ⟨.annotationXml, ⟨rfl, .inr ⟨rfl, rfl, annotation⟩⟩, ?_⟩
        intro limit
        simp only [Bool.false_eq_true, if_false, if_neg font, if_pos annotation]
      · refine .inr ⟨.inr ⟨rfl, annotation⟩, (s, .ok .none), harmless_text none, ?_⟩
        intro limit
        simp only [Bool.false_eq_true, if_false, if_neg font, if_neg annotation]

/-- A tag that may push is passed by the guard, and leaves no foreign content. -/
theorem MayPush.kind (may : MayPush u s tagName) :
    (u.trackStartTag s.ambiguityGuard tagName).2 = none ∧
      (tagName = Tag.svg ∨ tagName = Tag.math ∨ s.currentNs ≠ .html ∧
        u.causesForeignContentExit tagName = false ∧
          (u.isIntegrationPointEnter s.currentNs tagName = true ∨
            tagName = .empty ∧ s.currentNs = .mathML)) := by
  rcases may with ⟨passed, svg | math⟩ | ⟨callback, defers⟩
  · exact ⟨passed, .inl svg⟩
  · exact ⟨passed, .inr (.inl math)⟩
  · cases callback with
    | integrationPoint =>
      obtain ⟨here, point⟩ := defers
      exact ⟨here.passed, .inr (.inr ⟨here.foreign, here.stays, .inl point⟩)⟩
    | annotationXml =>
      obtain ⟨here, -, annotation⟩ := defers
      exact ⟨here.passed, .inr (.inr ⟨here.foreign, here.stays, .inr annotation⟩)⟩
    | font | endTag => cases defers

theorem startTag_passed (passed : (u.trackStartTag s.ambiguityGuard tagName).2 = none) :
    getFeedbackForStartTag limit u s tagName =
      if tagName = Tag.svg then enterNs limit (tracked u s tagName) .svg
      else if tagName = Tag.math then enterNs limit (tracked u s tagName) .mathML
      else if s.currentNs ≠ .html then
        getFeedbackForStartTagInForeignContent limit u (tracked u s tagName) tagName
      else (tracked u s tagName, .ok (textTypeFeedback (u.getTextTypeAdjustment tagName))) := by
  unfold getFeedbackForStartTag
  simp only [passed, tracked]

/-- A start tag enters a namespace, requests its lexeme behind the depth check, or does
what no limit changes. -/
theorem startTag_cases (u : Unshown Guard TextType) (s : Simulator Guard)
    (tagName : LocalNameHash) :
    (EntersNs u s tagName ∧ ∃ ns, ∀ limit,
      getFeedbackForStartTag limit u s tagName = enterNs limit (tracked u s tagName) ns) ∨
    (∃ callback, Defers u s tagName callback ∧ ∀ limit,
      getFeedbackForStartTag limit u s tagName =
        requestChecked limit (tracked u s tagName) callback) ∨
    (¬ MayPush u s tagName ∧ ∃ result, Harmless (tracked u s tagName) result ∧ ∀ limit,
      getFeedbackForStartTag limit u s tagName = result) := by
  cases guard : (u.trackStartTag s.ambiguityGuard tagName).2 with
  | some onTagName =>
    refine .inr (.inr ⟨?_, (tracked u s tagName, .error (.ambiguousTextType onTagName)),
      harmless_refused ?_, ?_⟩)
    · intro may
      cases guard.symm.trans may.kind.1
    · intro max same
      cases same
    · intro limit
      simp only [getFeedbackForStartTag, guard, tracked]
  | none =>
    simp only [startTag_passed guard]
    by_cases svg : tagName = Tag.svg
    · exact .inl ⟨⟨guard, .inl svg⟩, .svg, fun _ => if_pos svg⟩
    by_cases math : tagName = Tag.math
    · exact .inl ⟨⟨guard, .inr math⟩, .mathML, fun _ => (if_neg svg).trans (if_pos math)⟩
    simp only [if_neg svg, if_neg math]
    by_cases foreign : s.currentNs ≠ .html
    · simp only [if_pos foreign]
      rcases foreign_cases u (tracked u s tagName) tagName with
        ⟨callback, ⟨stays, kind⟩, same⟩ | ⟨kind, result, harmless, same⟩
      · have here : StaysForeign u s tagName := ⟨guard, svg, math, foreign, stays⟩
        refine .inr (.inl ⟨callback, ?_, same⟩)
        rcases kind with ⟨rfl, point⟩ | ⟨rfl, noPoint, annotation⟩
        · exact ⟨here, point⟩
        · exact ⟨here, noPoint, annotation⟩
      · refine .inr (.inr ⟨?_, result, harmless, same⟩)
        intro may
        obtain ⟨-, isSvg | isMath | ⟨-, stays, point⟩⟩ := may.kind
        · exact svg isSvg
        · exact math isMath
        · rcases kind with exits | ⟨noPoint, noAnnotation⟩
          · cases stays.symm.trans exits
          · exact point.elim (fun h => nomatch noPoint.symm.trans h) noAnnotation
    · simp only [if_neg foreign]
      refine .inr (.inr ⟨?_, _, harmless_text (u.getTextTypeAdjustment tagName), fun _ => rfl⟩)
      intro may
      obtain ⟨-, isSvg | isMath | ⟨isForeign, -⟩⟩ := may.kind
      · exact svg isSvg
      · exact math isMath
      · exact foreign isForeign

theorem Defers.stays (defers : Defers u s tagName callback) : StaysForeign u s tagName := by
  cases callback with
  | integrationPoint | annotationXml => exact defers.1
  | font | endTag => cases defers

theorem Defers.unique {other : Callback} (this : Defers u s tagName callback)
    (that : Defers u s tagName other) : callback = other := by
  cases callback with
  | integrationPoint =>
    cases other with
    | integrationPoint => rfl
    | annotationXml => cases this.2.symm.trans that.2.1
    | font | endTag => cases that
  | annotationXml =>
    cases other with
    | integrationPoint => cases that.2.symm.trans this.2.1
    | annotationXml => rfl
    | font | endTag => cases that
  | font | endTag => cases this

theorem startTag_deferred (defers : Defers u s tagName callback) (limit : Option Nat) :
    getFeedbackForStartTag limit u s tagName =
      requestChecked limit (tracked u s tagName) callback := by
  rcases startTag_cases u s tagName with ⟨enters, -⟩ | ⟨other, that, same⟩ | ⟨cannot, -⟩
  · exact absurd enters.2 (not_or.2 ⟨defers.stays.not_svg, defers.stays.not_math⟩)
  · rw [defers.unique that, same]
  · exact absurd (.inr ⟨callback, defers⟩) cannot

/-- What a deferred tag does to the unlimited stack is decided by its lexeme. -/
theorem runStartTag_deferred (defers : Defers u s tagName callback) :
    (runStartTag none u s tagName lexeme).nsStack =
      if callback.spares u lexeme then s.nsStack else .html :: s.nsStack := by
  have ran : runStartTag none u s tagName lexeme =
      (callback.run none u { tracked u s tagName with requested := none } lexeme).1 := by
    simp only [runStartTag, startTag_deferred defers, requestChecked, depthError_none,
      requestLexeme, Prod.map, id_eq]
  rw [ran]
  cases callback with
  | integrationPoint =>
    cases closing : lexeme.selfClosing <;>
      simp only [Callback.run, Callback.spares, closing] <;> rfl
  | annotationXml =>
    cases annotation : isHtmlAnnotationXml u lexeme <;>
      simp only [Callback.run, Callback.spares, annotation] <;> rfl
  | font | endTag => cases defers

theorem Harmless.runStartTag {result : Simulator Guard × Answer TextType}
    (h : Harmless (tracked u s tagName) result)
    (same : ∀ limit, getFeedbackForStartTag limit u s tagName = result) :
    (runStartTag limit u s tagName lexeme).nsStack.length ≤ s.nsStack.length := by
  simp only [TreeBuilder.runStartTag, same]
  split
  next _ _ callback =>
    obtain rfl := h.deferred callback rfl
    simp only [Callback.run]
    split_ifs
    · exact leaveNs_length.trans h.depth
    · exact h.depth
  next => exact h.depth

/-- A tag pushes when it enters a namespace, or when it is deferred and not spared. -/
theorem pushes_iff :
    Pushes u s tagName lexeme ↔ MayPush u s tagName ∧ ¬ Spared u s tagName lexeme := by
  unfold Pushes
  rcases startTag_cases u s tagName with
    ⟨enters, ns, same⟩ | ⟨callback, defers, -⟩ | ⟨cannot, result, harmless, same⟩
  · have pushed : (runStartTag none u s tagName lexeme).nsStack = ns :: s.nsStack := by
      simp only [runStartTag, same, enterNs, depthError_none]
      rfl
    have sure : ¬ Spared u s tagName lexeme := by
      rintro ⟨callback, defers, -⟩
      exact enters.2.elim defers.stays.not_svg defers.stays.not_math
    rw [pushed]
    exact iff_of_true (Nat.lt_succ_self _) ⟨.inl enters, sure⟩
  · have spared : Spared u s tagName lexeme ↔ callback.spares u lexeme = true := by
      constructor
      · rintro ⟨other, defersOther, spares⟩
        rwa [defers.unique defersOther]
      · intro spares
        exact ⟨callback, defers, spares⟩
    rw [runStartTag_deferred defers, spared]
    have may : MayPush u s tagName := .inr ⟨callback, defers⟩
    split_ifs with spares
    · exact iff_of_false (Nat.lt_irrefl _) fun h => h.2 spares
    · exact iff_of_true (Nat.lt_succ_self _) ⟨may, spares⟩
  · exact iff_of_false (Nat.not_lt.2 (harmless.runStartTag same)) fun h => cannot h.1

/-- Below the limit, or with a tag that cannot push, the limit changes nothing. -/
theorem startTag_agrees (below : ¬ (maxNsStackDepth ≤ s.nsStack.length ∧ MayPush u s tagName)) :
    getFeedbackForStartTag (some maxNsStackDepth) u s tagName =
      getFeedbackForStartTag none u s tagName := by
  have room : MayPush u s tagName → (tracked u s tagName).nsStack.length < maxNsStackDepth := by
    intro may
    exact Nat.not_le.1 fun full => below ⟨full, may⟩
  rcases startTag_cases u s tagName with
    ⟨enters, ns, same⟩ | ⟨callback, defers, same⟩ | ⟨-, result, -, same⟩
  · rw [same, same, enterNs, enterNs, depthError_room (room (.inl enters)), depthError_none]
  · rw [same, same, requestChecked, requestChecked,
      depthError_room (room (.inr ⟨callback, defers⟩)), depthError_none]
  · rw [same, same]

/-- The unlimited simulator never reports too deep a nesting. -/
theorem startTag_unlimited (max : Nat) :
    (getFeedbackForStartTag none u s tagName).2 ≠ .error (.tooDeepFragmentNesting max) := by
  rcases startTag_cases u s tagName with
    ⟨-, ns, same⟩ | ⟨callback, -, same⟩ | ⟨-, result, harmless, same⟩
  · rw [same, enterNs, depthError_none]
    intro refused
    cases refused
  · rw [same, requestChecked, depthError_none]
    intro refused
    cases refused
  · rw [same]
    exact harmless.passed max

/-- A tag that may push is refused on a full stack, and changes nothing there. -/
theorem startTag_refused (full : maxNsStackDepth ≤ s.nsStack.length)
    (may : MayPush u s tagName) :
    getFeedbackForStartTag (some maxNsStackDepth) u s tagName =
      (tracked u s tagName, .error (.tooDeepFragmentNesting maxNsStackDepth)) := by
  have fullTracked : maxNsStackDepth ≤ (tracked u s tagName).nsStack.length := full
  rcases startTag_cases u s tagName with ⟨-, ns, same⟩ | ⟨callback, -, same⟩ | ⟨cannot, -⟩
  · rw [same, enterNs, depthError_full fullTracked]
  · rw [same, requestChecked, depthError_full fullTracked]
  · exact absurd may cannot

/-- `TooDeepFragmentNesting` is the answer to exactly the tags that may push on a full
stack. -/
theorem tooDeep_iff :
    (getFeedbackForStartTag (some maxNsStackDepth) u s tagName).2 =
        .error (.tooDeepFragmentNesting maxNsStackDepth) ↔
      maxNsStackDepth ≤ s.nsStack.length ∧ MayPush u s tagName := by
  constructor
  · intro refused
    by_contra below
    rw [startTag_agrees below] at refused
    exact startTag_unlimited _ refused
  · rintro ⟨full, may⟩
    rw [startTag_refused full may]

theorem expectEnterNs_unlimited :
    expectEnterNs none s = (push s .html, (.setAllowCdata false : TreeBuilderFeedback TextType)) := by
  simp [expectEnterNs, enterNs]

theorem callback_agrees (room : callback.Enters → s.nsStack.length < maxNsStackDepth) :
    callback.run (some maxNsStackDepth) u s lexeme = callback.run none u s lexeme := by
  cases callback with
  | integrationPoint =>
    simp only [Callback.run, expectEnterNs_room (room (.inl rfl)), expectEnterNs_unlimited]
  | annotationXml =>
    simp only [Callback.run, expectEnterNs_room (room (.inr rfl)), expectEnterNs_unlimited]
  | font | endTag => rfl

theorem feed_agrees (h : Inv s) (below : ¬ AtLimit u s e) :
    feed (some maxNsStackDepth) u s e = feed none u s e := by
  unfold feed
  cases e with
  | startTag tagName =>
    cases s.requested with
    | none => simp only [startTag_agrees below]
    | some callback => rfl
  | endTag tagName => cases s.requested <;> rfl
  | lexeme lexeme =>
    cases waiting : s.requested with
    | none => rfl
    | some callback =>
      have room : callback.Enters →
          ({ s with requested := none } : Simulator Guard).nsStack.length < maxNsStackDepth :=
        h.room callback waiting
      simp only [callback_agrees room]

/-- Whether an event is taken does not depend on the limit. -/
theorem feed_eq_none (other : Option Nat) (stuck : feed limit u s e = none) :
    feed other u s e = none := by
  unfold feed at stuck ⊢
  split
  · rfl
  next alive =>
    rw [if_neg alive] at stuck
    cases e <;> cases waiting : s.requested <;> simp_all

theorem step_agrees (h : c.Inv) (below : ¬ AtLimit u c.simulator e) :
    step (some maxNsStackDepth) u c e = step none u c e := by
  rw [step, step, feed_agrees h below]

/-- As long as no tag that may push meets a full stack, the limited simulator runs like the
unlimited one. -/
theorem limited_agrees {events : List Event} (guard : Guard)
    (below : Along (step none u) (fun c e => ¬ AtLimit u c.simulator e) (.new guard) events) :
    exec (step (some maxNsStackDepth) u) (.new guard) events =
      exec (step none u) (.new guard) events := by
  refine exec_congr_along ?_ ?_ ?_ (inv_new guard) below
  · intro c e d h ok taken
    rw [← step_agrees h ok] at taken
    exact inv_step h taken
  · intro c e h ok
    exact step_agrees h ok
  · intro c e stuck
    rw [step, Option.map_eq_none_iff] at stuck ⊢
    exact feed_eq_none _ stuck

/-- No answer so far reports too deep a nesting. -/
def Session.Unrefused (c : Session Guard TextType) : Prop :=
  ∀ max, .error (.tooDeepFragmentNesting max) ∉ c.answers

theorem unrefused_step (h : c.Unrefused) (taken : step none u c e = some d) : d.Unrefused := by
  intro max
  obtain ⟨answer, fed, log⟩ := step_eq_some taken
  rw [log, List.mem_append, List.mem_singleton]
  rintro (before | now)
  · exact h max before
  · subst now
    rcases feed_cases fed with ⟨_, -, -, result⟩ | ⟨_, _, -, -, -, result⟩ |
      ⟨_, _, _, -, -, -, result⟩
    · exact startTag_unlimited max (congrArg Prod.snd result)
    · cases result
    · cases result

theorem unlimited_unrefused {events : List Event} {guard : Guard}
    (run : exec (step none u) (.new guard) events = some c) : c.Unrefused :=
  exec_invariant (fun _ _ _ h taken => unrefused_step h taken) (fun _ => List.not_mem_nil) run

/-- The rules of a simulator that is not strict, as far as the run below uses them. -/
def htmlRules : Unshown Unit Unit where
  trackStartTag _ _ := ((), none)
  trackEndTag _ _ := ()
  getTextTypeAdjustment _ := none
  causesForeignContentExit tagName := tagName = .named "div" || tagName = .named "p"
  isIntegrationPointEnter ns tagName :=
    ns = .svg && (tagName = .named "desc" || tagName = .named "title" ||
      tagName = .named "foreignobject")
  fontExit attr := attr.name = "color" || attr.name = "face" || attr.name = "size"
  isAnnotationXml lexeme := !lexeme.selfClosing && lexeme.name = "annotation-xml"
  isEncoding attr := attr.name = "encoding"
  eqCaseInsensitive actual expected := actual.toList.map Char.toLower = expected.toList
  onEndTag stack ns tagName :=
    if ns = .svg ∧ tagName = Tag.svg ∧ 1 < stack.length then .leave else .stay
  endTagLeaves _ := false

/-- `n` nested `<svg>` elements. -/
def nested : Nat → Session Unit Unit
  | 0 => .new ()
  | n + 1 => ⟨push (nested n).simulator .svg, (nested n).answers ++ [.ok (.setAllowCdata true)]⟩

theorem nested_length (n : Nat) : (nested n).simulator.nsStack.length = n + 1 := by
  induction n with
  | zero => rfl
  | succ n ih => exact congrArg Nat.succ ih

theorem nested_idle (n : Nat) :
    (nested n).simulator.requested = none ∧ (nested n).simulator.panicked = false := by
  induction n with
  | zero => exact ⟨rfl, rfl⟩
  | succ n ih => exact ih

theorem step_nested {n : Nat} (room : depthError limit (nested n).simulator = none) :
    step limit htmlRules (nested n) (.startTag Tag.svg) = some (nested (n + 1)) := by
  obtain ⟨idle, alive⟩ := nested_idle n
  have answer : getFeedbackForStartTag limit htmlRules (nested n).simulator Tag.svg =
      (push (nested n).simulator .svg, .ok (.setAllowCdata true)) := by
    rw [startTag_passed rfl, if_pos rfl]
    simp only [enterNs, tracked, room]
    rfl
  simp only [step, feed, alive, idle, answer, Bool.false_eq_true, if_false, Option.map_some, nested]

theorem exec_nested {events : List Event} {k : Nat} (n : Nat)
    (room : ∀ i, i < k + n → depthError limit (nested i).simulator = none) :
    exec (step limit htmlRules) (nested k) (List.replicate n (.startTag Tag.svg) ++ events) =
      exec (step limit htmlRules) (nested (k + n)) events := by
  induction n generalizing k with
  | zero => rfl
  | succ n ih =>
    rw [List.replicate_succ, List.cons_append, exec_cons, step_nested (room k (by omega))]
    have later := ih (k := k + 1) fun i below => room i (by omega)
    rwa [show k + 1 + n = k + (n + 1) by omega] at later

theorem always_nested {events : List Event} {k : Nat} (n : Nat)
    {P : Session Unit Unit → Prop} (good : ∀ i, i < k + n → P (nested i))
    (rest : Always (step none htmlRules) P (nested (k + n)) events) :
    Always (step none htmlRules) P (nested k)
      (List.replicate n (.startTag Tag.svg) ++ events) := by
  induction n generalizing k with
  | zero => exact rest
  | succ n ih =>
    rw [show k + (n + 1) = k + 1 + n by omega] at good rest
    rw [List.replicate_succ, List.cons_append, always_cons]
    refine ⟨good k (by omega), ?_⟩
    intro m taken
    obtain rfl := Option.some.inj ((step_nested depthError_none).symm.trans taken)
    exact ih good rest

/-- A session that stands in the innermost of `MAX_NS_STACK_DEPTH - 1` nested `<svg>`
elements. -/
structure InnermostSvg (c : Session Unit Unit) : Prop where
  idle : c.simulator.requested = none
  alive : c.simulator.panicked = false
  svg : c.simulator.currentNs = .svg
  full : c.simulator.nsStack.length = maxNsStackDepth

theorem innermost_nested : InnermostSvg (nested 1023) :=
  ⟨(nested_idle _).1, (nested_idle _).2, rfl, nested_length _⟩

section
variable {c : Session Unit Unit}

def desc : LocalNameHash := .named "desc"

def descLexeme : Lexeme := ⟨"desc", true, []⟩

theorem InnermostSvg.defers (h : InnermostSvg c) :
    Defers htmlRules c.simulator desc .integrationPoint := by
  refine ⟨⟨rfl, by decide, by decide, ?_, by decide⟩, ?_⟩ <;> rw [h.svg] <;> decide

theorem InnermostSvg.refused (h : InnermostSvg c) :
    exec (step (some maxNsStackDepth) htmlRules) c [.startTag desc, .lexeme descLexeme] = none := by
  have refused : step (some maxNsStackDepth) htmlRules c (.startTag desc) =
      some ⟨c.simulator, c.answers ++ [.error (.tooDeepFragmentNesting maxNsStackDepth)]⟩ := by
    simp only [step, feed, h.alive, h.idle, startTag_refused h.full.ge (.inr ⟨_, h.defers⟩),
      Bool.false_eq_true, if_false, Option.map_some]
    rfl
  rw [exec_cons, refused, Option.bind_some, exec_cons]
  simp only [step, feed, h.alive, h.idle, Bool.false_eq_true, if_false, Option.map_none,
    Option.bind_none]

/-- The unlimited simulator asks for the lexeme and then changes nothing. -/
theorem InnermostSvg.spared (h : InnermostSvg c) :
    step none htmlRules c (.startTag desc) =
        some ⟨{ c.simulator with requested := some .integrationPoint },
          c.answers ++ [.ok (.requestLexeme .integrationPoint)]⟩ ∧
      step none htmlRules ⟨{ c.simulator with requested := some .integrationPoint },
          c.answers ++ [.ok (.requestLexeme .integrationPoint)]⟩ (.lexeme descLexeme) =
        some ⟨c.simulator, c.answers ++ [.ok (.requestLexeme .integrationPoint)] ++
          [.ok .none]⟩ := by
  have deferred := startTag_deferred h.defers none
  obtain ⟨⟨nsStack, currentNs, guard, requested, panicked⟩, answers⟩ := c
  obtain rfl : requested = none := h.idle
  obtain rfl : panicked = false := h.alive
  constructor
  · simp only [step, feed, deferred, Bool.false_eq_true, if_false, Option.map_some]
    rfl
  · rfl

end

/-- A self-closing `<desc/>` in `n` nested `<svg>` elements. -/
def deepDesc (n : Nat) : List Event :=
  List.replicate n (.startTag Tag.svg) ++ [.startTag desc, .lexeme descLexeme]

theorem InnermostSvg.bounded {n : Nat} (h : InnermostSvg (nested n)) :
    Always (step none htmlRules) (fun c => c.simulator.nsStack.length ≤ maxNsStackDepth)
      (.new ()) (deepDesc n) := by
  obtain ⟨requested, closed⟩ := h.spared
  have small : ∀ i, i < 0 + n → (nested i).simulator.nsStack.length ≤ maxNsStackDepth := by
    intro i below
    have full := h.full
    rw [nested_length] at full ⊢
    omega
  rw [← Nat.zero_add n] at h requested closed
  refine always_nested (k := 0) n (P := fun c => c.simulator.nsStack.length ≤ maxNsStackDepth)
    small (always_cons.2 ⟨h.full.le, ?_⟩)
  intro m taken
  obtain rfl := Option.some.inj (requested.symm.trans taken)
  refine always_cons.2 ⟨h.full.le, ?_⟩
  intro m taken
  obtain rfl := Option.some.inj (closed.symm.trans taken)
  intro pre empty t run
  rw [List.prefix_nil.1 empty, exec_nil] at run
  obtain rfl := Option.some.inj run
  exact h.full.le

theorem InnermostSvg.differs {n : Nat} (h : InnermostSvg (nested n)) :
    exec (step (some maxNsStackDepth) htmlRules) (.new ()) (deepDesc n) ≠
      exec (step none htmlRules) (.new ()) (deepDesc n) := by
  obtain ⟨requested, closed⟩ := h.spared
  have room : ∀ i, i < 0 + n →
      depthError (some maxNsStackDepth) (nested i).simulator = none := by
    intro i below
    apply depthError_room
    have full := h.full
    rw [nested_length] at full ⊢
    omega
  rw [← Nat.zero_add n] at h requested closed
  have limited := (exec_nested (k := 0) n room).trans h.refused
  have unlimited : exec (step none htmlRules) (nested 0) (deepDesc n) =
      exec (step none htmlRules) (nested (0 + n)) [.startTag desc, .lexeme descLexeme] :=
    exec_nested n fun _ _ => rfl
  rw [exec_cons, requested, Option.bind_some, exec_cons, closed, Option.bind_some] at unlimited
  intro same
  cases limited.symm.trans (same.trans unlimited)

/-- On a self-closing `<desc/>` in `MAX_NS_STACK_DEPTH - 1` nested `<svg>` elements the
unlimited stack never grows beyond the limit, and `<desc/>` pushes nothing; the limited
simulator refuses it all the same. -/
theorem self_closing_refused :
    Always (step none htmlRules) (fun c => c.simulator.nsStack.length ≤ maxNsStackDepth)
      (.new ()) (deepDesc 1023) ∧
    exec (step (some maxNsStackDepth) htmlRules) (.new ()) (deepDesc 1023) ≠
      exec (step none htmlRules) (.new ()) (deepDesc 1023) ∧
    (getFeedbackForStartTag (some maxNsStackDepth) htmlRules (nested 1023).simulator desc).2 =
      .error (.tooDeepFragmentNesting maxNsStackDepth) ∧
    ¬ Pushes htmlRules (nested 1023).simulator desc descLexeme := by
  have h := innermost_nested
  refine ⟨h.bounded, h.differs, ?_, ?_⟩
  · rw [startTag_refused h.full.ge (.inr ⟨_, h.defers⟩)]
  · rw [pushes_iff]
    exact fun pushes => pushes.2 ⟨_, h.defers, rfl⟩

/-- **The limit refuses the tags that may push on a full stack, and nothing else.** As long
as no such tag arrives, the limited simulator gives the answers of the unlimited one and
never `TooDeepFragmentNesting`. That error is the answer to exactly these tags, which are
those that push and those whose lexeme, not yet seen, then spares them. -/
theorem limit_exact (u : Unshown Guard TextType) (guard : Guard) :
    (∀ events, Along (step none u) (fun c e => ¬ AtLimit u c.simulator e) (.new guard) events →
      exec (step (some maxNsStackDepth) u) (.new guard) events =
          exec (step none u) (.new guard) events ∧
        ∀ c, exec (step (some maxNsStackDepth) u) (.new guard) events = some c →
          c.Unrefused) ∧
    ∀ (s : Simulator Guard) (tagName : LocalNameHash),
      ((getFeedbackForStartTag (some maxNsStackDepth) u s tagName).2 =
          .error (.tooDeepFragmentNesting maxNsStackDepth) ↔
        maxNsStackDepth ≤ s.nsStack.length ∧ MayPush u s tagName) ∧
      ∀ lexeme, Pushes u s tagName lexeme ↔
        MayPush u s tagName ∧ ¬ Spared u s tagName lexeme := by
  constructor
  · intro events below
    have same := limited_agrees guard below
    refine ⟨same, ?_⟩
    intro c run
    rw [same] at run
    exact unlimited_unrefused run
  · intro s tagName
    exact ⟨tooDeep_iff, fun lexeme => pushes_iff⟩

end SecurityAudits.LolHtml.TreeBuilder
