import SecurityAudits.Lib.Run

/-!
# The namespace stack of the tree builder simulator

`TreeBuilderSimulator` follows `<svg>` and `<math>` in and out of foreign content with a
stack of namespaces, whose depth the patch limits. Some start tags push at once, others
request the tag's lexeme and push in a deferred callback, which cannot return an error and
therefore `expect`s that the limit was checked when it was requested.

Both versions are one model: `limit` is `some MAX_NS_STACK_DEPTH` for the patched code and
`none` for the code it replaces, which pushes unconditionally and tests nothing.
-/

namespace SecurityAudits.LolHtml.TreeBuilder
set_option autoImplicit false
open SecurityAudits.Run

/-- `MAX_NS_STACK_DEPTH`. -/
def maxNsStackDepth : Nat := 1024

inductive Namespace
  | html | svg | mathML
  deriving DecidableEq

/-- A `LocalNameHash`: empty for a name that cannot be hashed, and otherwise as good as
the name. -/
inductive LocalNameHash
  | empty
  | named (name : String)
  deriving DecidableEq

def Tag.svg : LocalNameHash := .named "svg"
def Tag.math : LocalNameHash := .named "math"
def Tag.font : LocalNameHash := .named "font"

/-- The closures passed to `request_lexeme`: for an integration point, for `<font>`, for a
possible `<annotation-xml>`, and for an end tag. -/
inductive Callback
  | integrationPoint | font | annotationXml | endTag
  deriving DecidableEq

inductive TreeBuilderFeedback (TextType : Type)
  | switchTextType (textType : TextType)
  | setAllowCdata (allow : Bool)
  | requestLexeme (callback : Callback)
  | none

inductive ParsingAmbiguityError
  | ambiguousTextType (onTagName : String)
  | tooDeepFragmentNesting (maxDepth : Nat)
  deriving DecidableEq

structure Attr where
  name : String
  value : String

/-- The parts of a tag lexeme that the callbacks read. -/
structure Lexeme where
  name : String
  selfClosing : Bool
  attributes : List Attr

/-- What an end tag does before its lexeme is known. -/
inductive EndTagAction
  | stay | leave | request

/-- The code the simulator calls that the patch does not show. -/
structure Unshown (Guard TextType : Type) where
  /-- `ambiguity_guard.track_start_tag` in strict mode: the name it bails out on, if any. -/
  trackStartTag : Guard → LocalNameHash → Guard × Option String
  trackEndTag : Guard → LocalNameHash → Guard
  getTextTypeAdjustment : LocalNameHash → Option TextType
  causesForeignContentExit : LocalNameHash → Bool
  isIntegrationPointEnter : Namespace → LocalNameHash → Bool
  /-- The test of an attribute name in the `<font>` callback. -/
  fontExit : Attr → Bool
  /-- The conditions around the attribute loop of the `<annotation-xml>` callback. -/
  isAnnotationXml : Lexeme → Bool
  /-- The test of an attribute name in that loop. -/
  isEncoding : Attr → Bool
  eqCaseInsensitive : String → String → Bool
  onEndTag : List Namespace → Namespace → LocalNameHash → EndTagAction
  /-- Whether the callback of an end tag leaves the namespace. -/
  endTagLeaves : Lexeme → Bool

/-- `TreeBuilderSimulator`, the top of `ns_stack` first, with the callback that waits for
its lexeme. -/
structure Simulator (Guard : Type) where
  nsStack : List Namespace
  currentNs : Namespace
  ambiguityGuard : Guard
  requested : Option Callback
  panicked : Bool

variable {Guard TextType : Type}

def Simulator.new (guard : Guard) : Simulator Guard :=
  ⟨[.html], .html, guard, none, false⟩

abbrev Answer (TextType : Type) := Except ParsingAmbiguityError (TreeBuilderFeedback TextType)

/-- `TooDeepFragmentNesting` when `ns_stack` is at its limit. -/
def depthError (limit : Option Nat) (s : Simulator Guard) : Option ParsingAmbiguityError :=
  match limit with
  | some max => if max ≤ s.nsStack.length then some (.tooDeepFragmentNesting max) else none
  | none => none

def push (s : Simulator Guard) (ns : Namespace) : Simulator Guard :=
  { s with nsStack := ns :: s.nsStack, currentNs := ns }

def enterNs (limit : Option Nat) (s : Simulator Guard) (ns : Namespace) :
    Simulator Guard × Answer TextType :=
  match depthError limit s with
  | some e => (s, .error e)
  | none => (push s ns, .ok (.setAllowCdata (ns ≠ .html)))

/-- `leave_ns`, which never empties the stack. -/
def leaveNs (s : Simulator Guard) : Simulator Guard × TreeBuilderFeedback TextType :=
  match s.nsStack with
  | _ :: top :: below =>
    ({ s with nsStack := top :: below, currentNs := top }, .setAllowCdata (top ≠ .html))
  | _ => (s, .setAllowCdata (s.currentNs ≠ .html))

def requestLexeme (s : Simulator Guard) (callback : Callback) :
    Simulator Guard × TreeBuilderFeedback TextType :=
  ({ s with requested := some callback }, .requestLexeme callback)

/-- `request_lexeme` behind the depth check that stands in for the one its callback cannot
report. -/
def requestChecked (limit : Option Nat) (s : Simulator Guard) (callback : Callback) :
    Simulator Guard × Answer TextType :=
  match depthError limit s with
  | some e => (s, .error e)
  | none => (requestLexeme s callback).map id .ok

def getFeedbackForStartTagInForeignContent (limit : Option Nat) (u : Unshown Guard TextType)
    (s : Simulator Guard) (tagName : LocalNameHash) : Simulator Guard × Answer TextType :=
  if u.causesForeignContentExit tagName then (leaveNs s).map id .ok
  else if u.isIntegrationPointEnter s.currentNs tagName then
    requestChecked limit s .integrationPoint
  else if tagName = Tag.font then (requestLexeme s .font).map id .ok
  else if tagName = .empty ∧ s.currentNs = .mathML then requestChecked limit s .annotationXml
  else (s, .ok .none)

def textTypeFeedback : Option TextType → TreeBuilderFeedback TextType
  | some textType => .switchTextType textType
  | none => .none

def getFeedbackForStartTag (limit : Option Nat) (u : Unshown Guard TextType)
    (s : Simulator Guard) (tagName : LocalNameHash) : Simulator Guard × Answer TextType :=
  let tracked := u.trackStartTag s.ambiguityGuard tagName
  let s := { s with ambiguityGuard := tracked.1 }
  match tracked.2 with
  | some onTagName => (s, .error (.ambiguousTextType onTagName))
  | none =>
    if tagName = Tag.svg then enterNs limit s .svg
    else if tagName = Tag.math then enterNs limit s .mathML
    else if s.currentNs ≠ .html then getFeedbackForStartTagInForeignContent limit u s tagName
    else (s, .ok (textTypeFeedback (u.getTextTypeAdjustment tagName)))

/-- `get_feedback_for_end_tag`: only `leave_ns` touches the stack. -/
def getFeedbackForEndTag (u : Unshown Guard TextType) (s : Simulator Guard)
    (tagName : LocalNameHash) : Simulator Guard × TreeBuilderFeedback TextType :=
  let s := { s with ambiguityGuard := u.trackEndTag s.ambiguityGuard tagName }
  match u.onEndTag s.nsStack s.currentNs tagName with
  | .stay => (s, .none)
  | .leave => leaveNs s
  | .request => requestLexeme s .endTag

/-- `this.enter_ns(Namespace::Html).expect(..)`, in a callback. -/
def expectEnterNs (limit : Option Nat) (s : Simulator Guard) :
    Simulator Guard × TreeBuilderFeedback TextType :=
  match enterNs limit s .html with
  | (entered, .ok feedback) => (entered, feedback)
  | (_, .error _) => ({ s with panicked := true }, .none)

/-- An `<annotation-xml>` whose encoding is an HTML one. -/
def isHtmlAnnotationXml (u : Unshown Guard TextType) (lexeme : Lexeme) : Bool :=
  u.isAnnotationXml lexeme && lexeme.attributes.any fun attr =>
    u.isEncoding attr && (u.eqCaseInsensitive attr.value "text/html" ||
      u.eqCaseInsensitive attr.value "application/xhtml+xml")

/-- The callbacks, run on the lexeme of the tag that requested them. -/
def Callback.run (limit : Option Nat) (u : Unshown Guard TextType) (s : Simulator Guard)
    (lexeme : Lexeme) : Callback → Simulator Guard × TreeBuilderFeedback TextType
  | .integrationPoint => if lexeme.selfClosing then (s, .none) else expectEnterNs limit s
  | .font => if lexeme.attributes.any u.fontExit then leaveNs s else (s, .none)
  | .annotationXml => if isHtmlAnnotationXml u lexeme then expectEnterNs limit s else (s, .none)
  | .endTag => if u.endTagLeaves lexeme then leaveNs s else (s, .none)

inductive Event
  | startTag (tagName : LocalNameHash)
  | endTag (tagName : LocalNameHash)
  | lexeme (lexeme : Lexeme)

/-- One call of the parser: a tag when no callback is waiting, the lexeme when one is. -/
def feed (limit : Option Nat) (u : Unshown Guard TextType) (s : Simulator Guard) (e : Event) :
    Option (Simulator Guard × Answer TextType) :=
  if s.panicked then none
  else match e, s.requested with
    | .startTag tagName, none => some (getFeedbackForStartTag limit u s tagName)
    | .endTag tagName, none => some ((getFeedbackForEndTag u s tagName).map id .ok)
    | .lexeme lexeme, some callback =>
      some ((callback.run limit u { s with requested := none } lexeme).map id .ok)
    | _, _ => none

/-- The simulator with everything it has answered so far. -/
structure Session (Guard TextType : Type) where
  simulator : Simulator Guard
  answers : List (Answer TextType)

def Session.new (guard : Guard) : Session Guard TextType := ⟨.new guard, []⟩

def step (limit : Option Nat) (u : Unshown Guard TextType) (c : Session Guard TextType)
    (e : Event) : Option (Session Guard TextType) :=
  (feed limit u c.simulator e).map fun (s, answer) => ⟨s, c.answers ++ [answer]⟩

variable {u : Unshown Guard TextType} {limit : Option Nat} {s : Simulator Guard}
  {c d : Session Guard TextType} {e : Event} {tagName : LocalNameHash} {lexeme : Lexeme}
  {callback : Callback}

@[simp] theorem depthError_none : depthError none s = none := rfl

theorem depthError_room (room : s.nsStack.length < maxNsStackDepth) :
    depthError (some maxNsStackDepth) s = none := by
  simp only [depthError, if_neg (Nat.not_le.2 room)]

theorem depthError_full (full : maxNsStackDepth ≤ s.nsStack.length) :
    depthError (some maxNsStackDepth) s = some (.tooDeepFragmentNesting maxNsStackDepth) := by
  simp only [depthError, if_pos full]

/-- The callbacks that may enter a namespace. -/
def Callback.Enters (callback : Callback) : Prop :=
  callback = .integrationPoint ∨ callback = .annotationXml

/-- What holds of the simulator at every moment. -/
structure Wf (s : Simulator Guard) : Prop where
  top : s.nsStack.head? = some s.currentNs
  depth : s.nsStack.length ≤ maxNsStackDepth
  alive : s.panicked = false

/-- Between two events, a callback that may push still finds the room that was checked when
it was requested. -/
structure Inv (s : Simulator Guard) : Prop extends Wf s where
  room : ∀ callback, s.requested = some callback → callback.Enters →
    s.nsStack.length < maxNsStackDepth

theorem Wf.inv (h : Wf s) (idle : s.requested = none) : Inv s where
  toWf := h
  room callback waiting := by rw [idle] at waiting; cases waiting

def Session.Inv (c : Session Guard TextType) : Prop := TreeBuilder.Inv c.simulator

theorem inv_new (guard : Guard) : (Session.new guard : Session Guard TextType).Inv :=
  Wf.inv ⟨rfl, Nat.succ_le_of_lt (Nat.zero_lt_succ 1023), rfl⟩ rfl

theorem Wf.push (h : Wf s) (room : s.nsStack.length < maxNsStackDepth) (ns : Namespace) :
    Wf (push s ns) where
  top := rfl
  depth := room
  alive := h.alive

theorem leaveNs_requested :
    (leaveNs s : _ × TreeBuilderFeedback TextType).1.requested = s.requested := by
  unfold leaveNs
  split <;> rfl

/-- `leave_ns` keeps the stack, with `current_ns` on its top. -/
theorem Wf.leaveNs (h : Wf s) : Wf (leaveNs s : _ × TreeBuilderFeedback TextType).1 := by
  unfold TreeBuilder.leaveNs
  split
  next dropped top below stack =>
    refine ⟨rfl, ?_, h.alive⟩
    have depth := h.depth
    rw [stack] at depth
    exact Nat.le_of_succ_le depth
  next => exact h

theorem Wf.request (h : Wf s) (room : callback.Enters → s.nsStack.length < maxNsStackDepth) :
    Inv { s with requested := some callback } where
  top := h.top
  depth := h.depth
  alive := h.alive
  room other waiting := by
    obtain rfl := Option.some.inj waiting
    exact room

theorem Wf.enterNs (h : Wf s) (idle : s.requested = none) (ns : Namespace) :
    Inv (enterNs (some maxNsStackDepth) s ns : _ × Answer TextType).1 := by
  unfold TreeBuilder.enterNs
  by_cases room : s.nsStack.length < maxNsStackDepth
  · rw [depthError_room room]
    exact (h.push room ns).inv idle
  · rw [depthError_full (Nat.not_lt.1 room)]
    exact h.inv idle

theorem Wf.requestChecked (h : Wf s) (idle : s.requested = none) :
    Inv (requestChecked (some maxNsStackDepth) s callback : _ × Answer TextType).1 := by
  unfold TreeBuilder.requestChecked
  by_cases room : s.nsStack.length < maxNsStackDepth
  · rw [depthError_room room]
    exact h.request fun _ => room
  · rw [depthError_full (Nat.not_lt.1 room)]
    exact h.inv idle

theorem Wf.foreign (h : Wf s) (idle : s.requested = none) :
    Inv (getFeedbackForStartTagInForeignContent (some maxNsStackDepth) u s tagName).1 := by
  unfold getFeedbackForStartTagInForeignContent
  split_ifs
  · exact h.leaveNs.inv (leaveNs_requested.trans idle)
  · exact h.requestChecked idle
  · exact h.request (by rintro (h | h) <;> cases h)
  · exact h.requestChecked idle
  · exact h.inv idle

/-- A start tag keeps the invariant, also when it is refused. -/
theorem Wf.startTag (h : Wf s) (idle : s.requested = none) :
    Inv (getFeedbackForStartTag (some maxNsStackDepth) u s tagName).1 := by
  have tracked : Wf { s with ambiguityGuard := (u.trackStartTag s.ambiguityGuard tagName).1 } :=
    ⟨h.top, h.depth, h.alive⟩
  unfold getFeedbackForStartTag
  dsimp only
  split
  · exact tracked.inv idle
  · split_ifs
    · exact tracked.enterNs idle _
    · exact tracked.enterNs idle _
    · exact tracked.foreign idle
    · exact tracked.inv idle

theorem Wf.endTag (h : Wf s) (idle : s.requested = none) :
    Inv (getFeedbackForEndTag u s tagName).1 := by
  have tracked : Wf { s with ambiguityGuard := u.trackEndTag s.ambiguityGuard tagName } :=
    ⟨h.top, h.depth, h.alive⟩
  unfold getFeedbackForEndTag
  dsimp only
  split
  · exact tracked.inv idle
  · exact tracked.leaveNs.inv (leaveNs_requested.trans idle)
  · exact tracked.request (by rintro (h | h) <;> cases h)

/-- The `expect` holds wherever there is room, and it then pushes. -/
theorem expectEnterNs_room (room : s.nsStack.length < maxNsStackDepth) :
    expectEnterNs (some maxNsStackDepth) s =
      (push s .html, (.setAllowCdata false : TreeBuilderFeedback TextType)) := by
  simp [expectEnterNs, enterNs, depthError_room room]

theorem Wf.runCallback (h : Wf s) (idle : s.requested = none)
    (room : callback.Enters → s.nsStack.length < maxNsStackDepth) :
    Inv (callback.run (some maxNsStackDepth) u s lexeme).1 := by
  have entered : callback.Enters →
      Inv (expectEnterNs (some maxNsStackDepth) s : _ × TreeBuilderFeedback TextType).1 := by
    intro enters
    rw [expectEnterNs_room (room enters)]
    exact (h.push (room enters) .html).inv idle
  cases callback with
  | integrationPoint =>
    simp only [Callback.run]
    split_ifs
    · exact h.inv idle
    · exact entered (.inl rfl)
  | annotationXml =>
    simp only [Callback.run]
    split_ifs
    · exact entered (.inr rfl)
    · exact h.inv idle
  | font | endTag =>
    simp only [Callback.run]
    split_ifs
    · exact h.leaveNs.inv (leaveNs_requested.trans idle)
    · exact h.inv idle

/-- An event is a tag met by an idle simulator, or the lexeme its callback waits for. -/
theorem feed_cases {t : Simulator Guard} {answer : Answer TextType}
    (fed : feed limit u s e = some (t, answer)) :
    (∃ tagName, e = .startTag tagName ∧ s.requested = none ∧
      getFeedbackForStartTag limit u s tagName = (t, answer)) ∨
    (∃ tagName feedback, e = .endTag tagName ∧ s.requested = none ∧
      getFeedbackForEndTag u s tagName = (t, feedback) ∧ answer = .ok feedback) ∨
    (∃ lexeme callback feedback, e = .lexeme lexeme ∧ s.requested = some callback ∧
      callback.run limit u { s with requested := none } lexeme = (t, feedback) ∧
        answer = .ok feedback) := by
  unfold feed at fed
  split at fed
  · cases fed
  · split at fed
    next tagName idle => exact .inl ⟨tagName, rfl, idle, Option.some.inj fed⟩
    next tagName idle =>
      cases fed
      exact .inr (.inl ⟨tagName, _, rfl, idle, rfl, rfl⟩)
    next lexeme callback waiting =>
      cases fed
      exact .inr (.inr ⟨lexeme, callback, _, rfl, waiting, rfl, rfl⟩)
    next => cases fed

theorem step_eq_some (taken : step limit u c e = some d) :
    ∃ answer, feed limit u c.simulator e = some (d.simulator, answer) ∧
      d.answers = c.answers ++ [answer] := by
  obtain ⟨⟨t, answer⟩, fed, rfl⟩ := Option.map_eq_some_iff.1 taken
  exact ⟨answer, fed, rfl⟩

/-- The step rule of the limited simulator. -/
theorem inv_step (h : c.Inv) (taken : step (some maxNsStackDepth) u c e = some d) : d.Inv := by
  obtain ⟨answer, fed, -⟩ := step_eq_some taken
  rcases feed_cases fed with ⟨tagName, -, idle, result⟩ | ⟨tagName, _, -, idle, result, -⟩ |
    ⟨lexeme, callback, _, -, waiting, result, -⟩
  · have kept : TreeBuilder.Inv
        (getFeedbackForStartTag (some maxNsStackDepth) u c.simulator tagName).1 :=
      h.toWf.startTag idle
    rwa [result] at kept
  · have kept : TreeBuilder.Inv (getFeedbackForEndTag u c.simulator tagName).1 :=
      h.toWf.endTag idle
    rwa [result] at kept
  · have ready : Wf { c.simulator with requested := none } := ⟨h.top, h.depth, h.alive⟩
    have kept : TreeBuilder.Inv (callback.run (some maxNsStackDepth) u
        { c.simulator with requested := none } lexeme).1 :=
      ready.runCallback rfl (h.room callback waiting)
    rwa [result] at kept

/-- **The stack is bounded and nothing panics.** In every state of every run of the limited
simulator, whatever errors it has returned, the stack holds at most `MAX_NS_STACK_DEPTH`
entries, `current_ns` is its top, and no `expect` has failed. -/
theorem stack_bounded (u : Unshown Guard TextType) (guard : Guard) (events : List Event) :
    Always (step (some maxNsStackDepth) u)
      (fun c => c.simulator.nsStack.length ≤ maxNsStackDepth ∧
        c.simulator.nsStack.head? = some c.simulator.currentNs ∧ c.simulator.panicked = false)
      (.new guard) events := by
  intro pre _ c run
  have h : c.Inv := exec_invariant (fun _ _ _ h taken => inv_step h taken) (inv_new guard) run
  exact ⟨h.depth, h.top, h.alive⟩

end SecurityAudits.LolHtml.TreeBuilder
