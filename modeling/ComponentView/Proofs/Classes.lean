import ComponentView.Proofs.Document.Attributes
import ComponentView.Proofs.Pieces
import ComponentView.Proofs.Runs
import ComponentView.Update.Effect
import Mathlib.Data.List.Induction

/-! # Classes that are switched

A switch reads the classes of a node as words, and writes them again with the text it was given
added or taken out. A text that is one class can be switched on and off at will: the last switch
decides whether the node has it, and all other classes stay. The classes of a toggle target are such
texts, since they were parted at their blanks (`Text.isClass_toggledClasses`). A text of several
words is not: it is written as a whole and read back as its words, so no switch finds it again
(`Document.Classed.setClass_phrase`). `Effect.classes_of_switches` says what a run of switches
leaves in both cases. -/

namespace ComponentView

namespace Text

/-- A text that is one class, with no blank in it, or none. -/
def IsClass (text : String) : Prop := words text = [text] ∨ words text = []

/-- The classes that a condition switches are one class each, if those of its targets were parted at
their blanks and its own name is one class. -/
theorem isClass_toggledClasses {targets : List ToggleClasses} {name : String}
    (parted : ∀ t ∈ targets, ∃ text, t.classes = words text) (own : IsClass name) :
    ∀ text ∈ Lay.toggledClasses targets name, IsClass text := by
  unfold Lay.toggledClasses
  split
  · next target found =>
    obtain ⟨text, whole⟩ := parted target (List.mem_of_find?_eq_some found)
    rw [whole]
    exact fun word hw => Or.inl (words_of_mem hw)
  · simpa using own

end Text

namespace Document

/-! ## One switch -/

variable {L : Type} {d : Document L} {i : NodeId} {before cs tokens texts : List String}
  {text : String}

/-- What one switch makes of the classes of a node: a class that is missing comes last, as all the
words of its text. -/
def reclass (on : Bool) (cs : List String) (text : String) : List String :=
  if on then if text ∈ cs then cs else cs ++ Text.words text else cs.filter (· ≠ text)

/-- The node is live, has the class attribute at most once, and has these classes. -/
structure Classed (d : Document L) (i : NodeId) (cs : List String) : Prop where
  live : d.isLive i = true
  single : Attributes.Single "class" (d.node i).attributes
  classes : d.classes i = cs

/-- The classes of a node are single words. -/
theorem Classed.words (h : Classed d i cs) : ∀ c ∈ cs, Text.words c = [c] := by
  rintro c hc
  rw [← h.classes] at hc
  exact Text.words_of_mem hc

/-- Classes that were written are read as the words of their texts. -/
theorem Classed.setClasses (h : Classed d i cs) (texts : List String) :
    Classed (d.setClasses i texts) i (texts.flatMap Text.words) := by
  obtain ⟨written, single⟩ := attribute?_setAttribute h.live h.single
    (if texts.isEmpty then none else some (" ".intercalate texts))
  refine ⟨?_, single, ?_⟩
  · rw [Document.setClasses, isLive_setAttribute]
    exact h.live
  · rw [Document.setClasses, Document.classes, written, ← Text.words_intercalate]
    cases texts <;> rfl

/-- Classes that are written again are the same classes. -/
theorem Classed.flatMap_words (h : ∀ c ∈ cs, Text.words c = [c]) : cs.flatMap Text.words = cs := by
  rw [List.flatMap_congr h, List.flatMap_singleton']

/-- Setting a class makes of the classes what it should. -/
theorem Classed.setClass (h : Classed d i cs) (text : String) (on : Bool) :
    Classed (d.setClass i text on) i (reclass on cs text) := by
  have there : d.hasClass i text = decide (text ∈ cs) := by
    rw [hasClass, h.classes, List.contains_eq_mem]
  unfold Document.setClass
  rw [there, h.classes]
  cases on with
  | false =>
    by_cases ht : text ∈ cs
    · have written := h.setClasses (cs.filter (· ≠ text))
      rw [Classed.flatMap_words fun c hc => h.words c (List.mem_of_mem_filter hc)] at written
      simpa [reclass, ht] using written
    · have same : cs.filter (· ≠ text) = cs :=
        List.filter_eq_self.mpr fun c hc => by simpa using ne_of_mem_of_not_mem hc ht
      rw [reclass, same]
      simpa [ht] using h
  | true =>
    by_cases ht : text ∈ cs
    · simpa [reclass, ht] using h
    · have written := h.setClasses (cs ++ [text])
      rw [List.flatMap_append, Classed.flatMap_words h.words] at written
      simpa [reclass, ht] using written

/-- A text that has several words, or blanks around one, is not found among the classes: switched on
it adds its words to whatever is there, and switched off it takes nothing out. -/
theorem Classed.setClass_phrase (h : Classed d i cs) (phrase : ¬ Text.IsClass text) (on : Bool) :
    Classed (d.setClass i text on) i (cs ++ if on then Text.words text else []) := by
  have missing : text ∉ cs := fun ht => phrase (Or.inl (h.words text ht))
  have next := h.setClass text on
  cases on with
  | false =>
    have same : cs.filter (· ≠ text) = cs :=
      List.filter_eq_self.mpr fun c hc => by simpa using ne_of_mem_of_not_mem hc missing
    rwa [reclass, if_neg Bool.false_ne_true, same, ← List.append_nil cs] at next
  | true => rwa [reclass, if_pos rfl, if_neg missing] at next

/-- A badge, which has the class `badge`. -/
def badge : Document Listener :=
  let (d, i) := ({} : Document Listener).createElement "div"
  d.setAttribute i "class" (some "badge")

/-- Two classes in one text are there twice after two switches, and are never switched off. -/
theorem classes_kept_by_switch :
    (((badge.setClass 0 "red bold" true).setClass 0 "red bold" true).setClass 0 "red bold"
      false).classes 0 = ["badge", "red", "bold", "red", "bold"] := by decide +kernel

/-! ## Many switches -/

/-- Switches the classes of some texts together. -/
def switchClasses (d : Document L) (i : NodeId) (texts : List String) (on : Bool) : Document L :=
  texts.foldl (fun d text => d.setClass i text on) d

/-- Switching one text is setting it. -/
theorem switchClasses_singleton (d : Document L) (i : NodeId) (text : String) (on : Bool) :
    d.switchClasses i [text] on = d.setClass i text on := by
  rw [switchClasses, List.foldl_cons, List.foldl_nil]

/-- Switching texts sets them one after the other. -/
theorem Classed.switchClasses (h : Classed d i cs) (texts : List String) (on : Bool) :
    Classed (d.switchClasses i texts on) i (texts.foldl (reclass on) cs) := by
  unfold Document.switchClasses
  induction texts generalizing d cs with
  | nil => exact h
  | cons text texts ih =>
    rw [List.foldl_cons, List.foldl_cons]
    exact ih (h.setClass text on)

/-- Switching off takes out the classes that have one of the texts. -/
theorem foldl_reclass_off : texts.foldl (reclass false) cs = cs.filter (· ∉ texts) := by
  induction texts generalizing cs with
  | nil => simp
  | cons text texts ih =>
    rw [List.foldl_cons, ih, reclass, if_neg Bool.false_ne_true, List.filter_filter]
    exact List.filter_congr fun c _ => by simp [Bool.and_comm]

/-- Switching on takes no class out and brings in the words of all texts. -/
theorem mem_foldl_reclass_on (words : ∀ c ∈ cs, Text.words c = [c]) {c : String}
    (hc : c ∈ cs ∨ c ∈ texts.flatMap Text.words) : c ∈ texts.foldl (reclass true) cs := by
  induction texts generalizing cs with
  | nil => simpa using hc
  | cons text texts ih =>
    have next (c : String) : c ∈ reclass true cs text ↔ c ∈ cs ∨ c ∈ Text.words text := by
      rw [reclass, if_pos rfl]
      split
      · next there => simp +contextual [words text there, there]
      · exact List.mem_append
    refine ih (fun c hc => ?_) ?_
    · rcases (next c).mp hc with hc | hc
      · exact words c hc
      · exact Text.words_of_mem hc
    · rw [List.flatMap_cons, List.mem_append, ← or_assoc, ← next] at hc
      exact hc

/-- What switches of the classes `tokens` leave of the classes `before`: the others stay in their
order, and no class comes in that is there. -/
structure Switched (tokens before after : List String) : Prop where
  words : ∀ c ∈ after, Text.words c = [c]
  others : after.filter (· ∉ tokens) = before.filter (· ∉ tokens)
  counts : ∀ c, after.count c ≤ max (before.count c) 1

/-- Before any switch the classes are as they were. -/
theorem Switched.refl (words : ∀ c ∈ before, Text.words c = [c]) :
    Switched tokens before before where
  words := words
  others := rfl
  counts _ := Nat.le_max_left _ _

/-- A switch of one of the tokens leaves the other classes as they were. -/
theorem Switched.reclass (h : Switched tokens before cs) (one : Text.IsClass text)
    (within : ∀ c ∈ Text.words text, c ∈ tokens) (on : Bool) :
    Switched tokens before (reclass on cs text) := by
  cases on with
  | false =>
    rw [Document.reclass, if_neg Bool.false_ne_true]
    refine ⟨fun c hc => h.words c (List.mem_of_mem_filter hc), ?_, fun c => ?_⟩
    · rw [List.filter_filter, ← h.others]
      refine List.filter_congr fun c hc => ?_
      -- A class that has the text is a word of it, and so one of the tokens.
      have token : c = text → c ∈ tokens := by
        rintro rfl
        exact within c (by rw [h.words c hc]; exact List.mem_singleton_self c)
      by_cases ht : c ∈ tokens <;> simp [ht, mt token]
    · exact (List.filter_sublist.count_le c).trans (h.counts c)
  | true =>
    rw [Document.reclass, if_pos rfl]
    split
    · exact h
    · next new =>
      refine ⟨fun c hc => ?_, ?_, fun c => ?_⟩
      · rcases List.mem_append.mp hc with hc | hc
        · exact h.words c hc
        · exact Text.words_of_mem hc
      · have none : (Text.words text).filter (· ∉ tokens) = [] :=
          List.filter_eq_nil_iff.mpr fun c hc => by simpa using within c hc
        rw [List.filter_append, none, List.append_nil, h.others]
      · rw [List.count_append]
        rcases one with one | one
        · rw [one, List.count_singleton]
          split
          · next he =>
            rw [← beq_iff_eq.mp he, List.count_eq_zero.mpr new]
            exact Nat.le_max_right _ _
          · exact h.counts c
        · rw [one]
          exact h.counts c

/-- What one switch of a text leaves, switches of some texts leave. -/
theorem Switched.foldl (h : Switched tokens before cs) (one : ∀ text ∈ texts, Text.IsClass text)
    (within : ∀ text ∈ texts, ∀ c ∈ Text.words text, c ∈ tokens) (on : Bool) :
    Switched tokens before (texts.foldl (Document.reclass on) cs) := by
  induction texts generalizing cs with
  | nil => exact h
  | cons text texts ih =>
    rw [List.forall_mem_cons] at one within
    exact ih (h.reclass one.1 within.1 on) one.2 within.2

/-- Where the classes of the texts were switched off, only the others are left. -/
theorem Switched.foldl_off (h : Switched (texts.flatMap Text.words) before cs)
    (one : ∀ text ∈ texts, Text.IsClass text) :
    texts.foldl (Document.reclass false) cs = before.filter (· ∉ texts.flatMap Text.words) := by
  rw [foldl_reclass_off, ← h.others]
  refine List.filter_congr fun c hc => decide_eq_decide.mpr (not_congr ?_)
  rw [List.mem_flatMap]
  constructor
  · exact fun ht => ⟨c, ht, by rw [h.words c hc]; exact List.mem_singleton_self c⟩
  · rintro ⟨text, ht, hw⟩
    rcases one text ht with same | none
    · rw [same, List.mem_singleton] at hw
      exact hw ▸ ht
    · rw [none] at hw
      cases hw

/-- Where the classes of the texts were switched on, they are there together with the others. -/
theorem Switched.mem_foldl_on (h : Switched (texts.flatMap Text.words) before cs)
    (one : ∀ text ∈ texts, Text.IsClass text) (c : String) :
    c ∈ texts.foldl (Document.reclass true) cs ↔ c ∈ before ∨ c ∈ texts.flatMap Text.words := by
  by_cases token : c ∈ texts.flatMap Text.words
  · simp only [token, or_true, iff_true]
    exact mem_foldl_reclass_on h.words (Or.inr token)
  · have switched := h.foldl one (fun text ht w hw => List.mem_flatMap.mpr ⟨text, ht, hw⟩) true
    have same := congrArg (c ∈ ·) switched.others
    simpa only [List.mem_filter, decide_eq_true_eq, token, not_false_eq_true, and_true, or_false,
      eq_iff_iff] using same

/-- What is left of the classes `before` by switches of the classes `tokens` of which the last is
`on`: if it is off, the classes are those from before without the tokens, in their order; if it is
on, they are those from before and the tokens. No class has come in that was there. -/
structure AsSwitched (on : Bool) (tokens before after : List String) : Prop where
  off : on = false → after = before.filter (· ∉ tokens)
  on : on = true → ∀ c, c ∈ after ↔ c ∈ before ∨ c ∈ tokens
  counts : ∀ c, after.count c ≤ max (before.count c) 1

/-- Where each text is one class, the last switch decides. -/
theorem Classed.switches (h : Classed d i before) (one : ∀ text ∈ texts, Text.IsClass text)
    (earlier : List Bool) (last : Bool) : ∃ after,
      Classed ((earlier ++ [last]).foldl (fun d on => d.switchClasses i texts on) d) i after ∧
      AsSwitched last (texts.flatMap Text.words) before after := by
  have within : ∀ text ∈ texts, ∀ c ∈ Text.words text, c ∈ texts.flatMap Text.words :=
    fun text ht c hc => List.mem_flatMap.mpr ⟨text, ht, hc⟩
  have between : ∃ cs, Switched (texts.flatMap Text.words) before cs ∧
      Classed (earlier.foldl (fun d on => d.switchClasses i texts on) d) i cs := by
    induction earlier using List.reverseRecOn with
    | nil => exact ⟨before, .refl h.words, h⟩
    | append_singleton earlier on ih =>
      obtain ⟨cs, switched, classed⟩ := ih
      rw [List.foldl_append]
      exact ⟨_, switched.foldl one within on, classed.switchClasses texts on⟩
  obtain ⟨cs, switched, classed⟩ := between
  rw [List.foldl_append]
  refine ⟨_, classed.switchClasses texts last, ?_, ?_, (switched.foldl one within last).counts⟩
  · rintro rfl
    exact switched.foldl_off one
  · rintro rfl
    exact switched.mem_foldl_on one

/-- A text that is not one class comes in once more with each switch that is on. -/
theorem Classed.switches_phrase (h : Classed d i before) (phrase : ¬ Text.IsClass text)
    (switches : List Bool) : Classed (switches.foldl (fun d on => d.switchClasses i [text] on) d) i
      (before ++ (switches.filter id).flatMap fun _ => Text.words text) := by
  induction switches generalizing d before with
  | nil => simpa using h
  | cons on switches ih =>
    have next := h.setClass_phrase phrase on
    rw [← switchClasses_singleton] at next
    have rest := ih next
    cases on <;> simpa using rest

end Document

/-- Changes of the document, one after another, are one change. -/
theorem Holding.forM_onDocument {α β : Type} (g : β → Document Listener → Document Listener)
    (bs : List β) (f : Focus α) : (bs.forM fun b => Holding.outside (Run.onDocument (g b))) f
      = .ok () { f with world.document := bs.foldl (fun d b => g b d) f.world.document } := by
  induction bs generalizing f with
  | nil => rfl
  | cons b bs ih => exact ih { f with world.document := g b f.world.document }

namespace Effect

/-- The texts of the classes that an effect switches. -/
def switched? : Effect → Option (List String)
  | switchClass text => some [text]
  | switchClasses texts => some texts
  | _ => none

variable {e : Effect} {texts : List String}

/-- The effect switches its texts together, on if the value counts as true. -/
theorem run_switch (switches : e.switched? = some texts) (s : Setting) (i : NodeId) (v : Value) :
    e.run s i v
      = Holding.outside (Run.onDocument (·.switchClasses i texts v.isTruthy)) := by
  cases e with
  | switchClass text =>
    obtain rfl := Option.some.inj switches
    simp only [run, Document.switchClasses_singleton]
  | switchClasses names =>
    obtain rfl := Option.some.inj switches
    funext f
    exact Holding.forM_onDocument (fun text d => d.setClass i text v.isTruthy) names f
  | _ => cases switches

/-- A class effect, or a condition that switches classes, runs with one value after another on a
live node that has the class attribute at most once. If each of its texts is one class, or blank,
the last value decides which classes the node has. If it has one text that is neither, the words of
that come in once more with each value that counts as true, and never go. -/
theorem classes_of_switches (switches : e.switched? = some texts) {f : Focus Pass} {i : NodeId}
    (live : f.world.document.isLive i = true)
    (single : Attributes.Single "class" (f.world.document.node i).attributes)
    (s : Setting) (earlier : List Value) (last : Value) :
    ∃ later, (earlier ++ [last]).forM (e.run s i) f = .ok () later ∧
      ((∀ text ∈ texts, Text.IsClass text) →
        Document.AsSwitched last.isTruthy (texts.flatMap Text.words)
          (f.world.document.classes i) (later.world.document.classes i)) ∧
      ∀ text, texts = [text] → ¬ Text.IsClass text → later.world.document.classes i
        = f.world.document.classes i
          ++ ((earlier ++ [last]).filter Value.isTruthy).flatMap fun _ => Text.words text := by
  have classed : f.world.document.Classed i (f.world.document.classes i) := ⟨live, single, rfl⟩
  refine ⟨_, by rw [funext (run_switch switches s i), Holding.forM_onDocument], ?_⟩
  rw [← List.foldl_map]
  refine ⟨fun one => ?_, ?_⟩
  · obtain ⟨after, left, switched⟩ :=
      classed.switches one (earlier.map Value.isTruthy) last.isTruthy
    rwa [List.map_append, List.map_singleton, left.classes]
  · rintro text rfl phrase
    rw [(classed.switches_phrase phrase _).classes, List.filter_map, List.flatMap_map]
    rfl

/-- A pass that has come to the badge. -/
def atBadge : Focus Pass := ⟨default, { document := Document.badge }⟩

/-- An alert turns the badge red and bold, is over, comes again and is over again. -/
theorem classes_of_alert :
    let alert := Effect.switchClasses (Lay.toggledClasses [.ofText "alert" "red  bold"] "alert")
    alert.switched? = some ["red", "bold"] ∧ (∀ text ∈ ["red", "bold"], Text.IsClass text) ∧
      Document.badge.isLive 0 = true ∧
      Attributes.Single "class" (Document.badge.node 0).attributes ∧
      ∀ s : Setting, ∃ later,
        ([Value.bool true, Value.null, Value.int 3] ++ [Value.str ""]).forM (alert.run s 0) atBadge
          = .ok () later ∧
        later.world.document.classes 0 = ["badge"] := by
  intro alert
  have switches : alert.switched? = some ["red", "bold"] := by decide +kernel
  have one : ∀ text ∈ ["red", "bold"], Text.IsClass text := by
    rw [← Option.some.inj switches]
    exact Text.isClass_toggledClasses (by simpa using ⟨_, rfl⟩) (Or.inl (by decide +kernel))
  have live : Document.badge.isLive 0 = true := by decide
  have single : Attributes.Single "class" (Document.badge.node 0).attributes :=
    show List.lookup _ _ = none by decide
  refine ⟨switches, one, live, single, fun s => ?_⟩
  obtain ⟨later, run, switched, -⟩ := classes_of_switches (f := atBadge) switches live single s
    [Value.bool true, Value.null, Value.int 3] (Value.str "")
  have left : (Document.badge.classes 0).filter (· ∉ ["red", "bold"].flatMap Text.words)
      = ["badge"] := by decide +kernel
  exact ⟨later, run, ((switched one).off rfl).trans left⟩

end Effect

end ComponentView
