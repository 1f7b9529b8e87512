import LazyLisp.Editor

/-!
# Documents follow their events

The editor keeps the text of a document, its outline and the diagnostics that were last shown for
it. All three follow from the events of the document alone, and indeed from the last of them, unless
that is a change without a text. Queries do not count.
-/

set_option autoImplicit false

namespace LazyLisp.Editor

/-! ## One document -/

/-- The text of the document after an event of it, if it is open then; the given text is the one
before the event, if it is open before. -/
def Event.textAfter (stored : Option Text) : Event → Option Text
  | .opened _ text => some text
  | .changed _ texts => some (texts.getLast?.getD (stored.getD []))
  | .closed _ => none

def Event.isClose : Event → Bool
  | .opened _ _ | .changed _ _ => false
  | .closed _ => true

theorem Event.isSome_textAfter (stored : Option Text) (event : Event) :
    (event.textAfter stored).isSome = !event.isClose := by
  cases event <;> rfl

theorem find?_putIn_self (uri : String) (document : Document)
    (documents : List (String × Document)) :
    ((putIn uri document documents).find? fun entry => entry.1 = uri) = some (uri, document) := by
  induction documents with
  | nil => simp [putIn]
  | cons entry documents ih =>
      rw [putIn]
      split
      next same => simp [same]
      next different => rw [List.find?_cons_of_neg (by simpa using different), ih]

theorem find?_putIn_of_ne {uri other : String} (different : other ≠ uri) (document : Document)
    (documents : List (String × Document)) :
    ((putIn uri document documents).find? fun entry => entry.1 = other) =
      documents.find? fun entry => entry.1 = other := by
  induction documents with
  | nil => simp [putIn, different.symm]
  | cons entry documents ih =>
      rw [putIn]
      split
      next same =>
        have neither : entry.1 ≠ other := fun equal => different (equal.symm.trans same)
        rw [List.find?_cons_of_neg (by simpa using neither),
          List.find?_cons_of_neg (by simpa using neither)]
      next => rw [List.find?_cons, List.find?_cons, ih]

variable {editor : Editor} {uri : String}

theorem document?_setText_self (editor : Editor) (uri : String) (text : Text) :
    (editor.setText uri text).1.document? uri = some (Document.ofText text) := by
  simp only [setText, document?, find?_putIn_self, Option.map_some]

theorem document?_setText_of_ne {other : String} (different : other ≠ uri) (text : Text) :
    (editor.setText uri text).1.document? other = editor.document? other := by
  simp only [setText, document?, find?_putIn_of_ne different]

theorem handle_changed (editor : Editor) (uri : String) (texts : List Text) :
    editor.handle (.changed uri texts) = editor.setText uri
      (texts.getLast?.getD (((editor.document? uri).map Document.text).getD [])) := by
  rw [handle]
  cases editor.document? uri <;> rfl

theorem document?_close_self (editor : Editor) (uri : String) :
    (editor.handle (.closed uri)).1.document? uri = none := by
  have gone : (editor.documents.filter fun entry => entry.1 ≠ uri).find?
      (fun entry => entry.1 = uri) = none := by
    refine List.find?_eq_none.mpr fun entry member => ?_
    simpa using (List.mem_filter.mp member).2
  simp only [handle, document?, gone, Option.map_none]

theorem document?_close_of_ne {other : String} (different : other ≠ uri) :
    (editor.handle (.closed uri)).1.document? other = editor.document? other := by
  have stays : (editor.documents.filter fun entry => entry.1 ≠ uri).find?
      (fun entry => entry.1 = other) = editor.documents.find? fun entry => entry.1 = other := by
    rw [List.find?_filter]
    congr 1
    funext entry
    by_cases same : entry.1 = other
    · simp [same, different]
    · simp [same]
  simp only [handle, document?, stays]

/-- An event determines its document. -/
theorem document?_handle_self (editor : Editor) (event : Event) :
    (editor.handle event).1.document? event.uri =
      (event.textAfter ((editor.document? event.uri).map Document.text)).map Document.ofText := by
  cases event with
  | opened uri text => exact document?_setText_self editor uri text
  | changed uri texts =>
      rw [handle_changed]
      exact document?_setText_self editor uri _
  | closed uri => exact document?_close_self editor uri

/-- An event leaves the other documents as they are. -/
theorem document?_handle_of_ne {event : Event} (different : uri ≠ event.uri) :
    (editor.handle event).1.document? uri = editor.document? uri := by
  cases event with
  | opened _ _ | changed _ _ => exact document?_setText_of_ne different _
  | closed _ => exact document?_close_of_ne different

/-- With an event the diagnostics of its document are shown as they are then. -/
theorem handle_snd (editor : Editor) (event : Event) :
    (editor.handle event).2 = ((editor.handle event).1.document? event.uri).elim []
      fun document => diagnostics document.outline := by
  rw [document?_handle_self]
  cases event with
  | opened _ _ | closed _ => rfl
  | changed _ _ =>
      rw [handle_changed]
      rfl

/-! ## Messages -/

def Message.event? : Message → Option Event
  | .event change => some change
  | .query _ => none

/-- The diagnostics of the document that a reply publishes. -/
def Reply.published? (uri : String) : Reply → Option (List Diagnostic)
  | .published other diagnostics => if other = uri then some diagnostics else none
  | .answered _ => none

def Reply.isPublished : Reply → Bool
  | .published _ _ => true
  | .answered _ => false

/-- The events of a document among the messages. -/
def eventsOf (uri : String) (messages : List Message) : List Event :=
  (messages.filterMap Message.event?).filter fun event => event.uri = uri

/-- The diagnostics that are published for a document, one list after another. -/
def publishedFor (uri : String) (replies : List Reply) : List (List Diagnostic) :=
  replies.filterMap (Reply.published? uri)

theorem exchange_append (editor : Editor) (before after : List Message) :
    editor.exchange (before ++ after) =
      (((editor.exchange before).1.exchange after).1,
        (editor.exchange before).2 ++ ((editor.exchange before).1.exchange after).2) := by
  induction before generalizing editor with
  | nil => rfl
  | cons message before ih => simp only [List.cons_append, exchange, ih]

theorem length_exchange (editor : Editor) (messages : List Message) :
    (editor.exchange messages).2.length = messages.length := by
  induction messages generalizing editor with
  | nil => rfl
  | cons message messages ih => simp only [exchange, List.length_cons, ih]

section

variable (uri) (messages : List Message) (replies : List Reply)

theorem eventsOf_event (event : Event) :
    eventsOf uri (.event event :: messages) =
      if event.uri = uri then event :: eventsOf uri messages else eventsOf uri messages := by
  simp only [eventsOf, List.filterMap_cons, Message.event?, List.filter_cons, decide_eq_true_eq]

theorem publishedFor_published (other : String) (diagnostics : List Diagnostic) :
    publishedFor uri (.published other diagnostics :: replies) =
      if other = uri then diagnostics :: publishedFor uri replies
      else publishedFor uri replies := by
  by_cases same : other = uri <;>
    simp only [publishedFor, List.filterMap_cons, Reply.published?, same, if_true, if_false]

theorem publishedFor_append (replies' : List Reply) :
    publishedFor uri (replies ++ replies') =
      publishedFor uri replies ++ publishedFor uri replies' :=
  List.filterMap_append

end

/-- Only its events change a document, each as it changes its text. -/
theorem document?_exchange (messages : List Message) {stored : Option Text}
    (present : editor.document? uri = stored.map Document.ofText) :
    (editor.exchange messages).1.document? uri =
      ((eventsOf uri messages).foldl Event.textAfter stored).map Document.ofText := by
  induction messages generalizing editor stored with
  | nil => exact present
  | cons message messages ih =>
      cases message with
      | query query => exact ih present
      | event event =>
          rw [eventsOf_event]
          split
          next same =>
            subst same
            have handled := document?_handle_self editor event
            have texts : Document.text ∘ Document.ofText = id := rfl
            rw [present, Option.map_map, texts, Option.map_id, id] at handled
            exact ih handled
          next different =>
            refine ih ?_
            rw [← present]
            exact document?_handle_of_ne (Ne.symm different)

/-- There is one publication for each event of a document. -/
theorem length_publishedFor_exchange (editor : Editor) (uri : String) (messages : List Message) :
    (publishedFor uri (editor.exchange messages).2).length = (eventsOf uri messages).length := by
  induction messages generalizing editor with
  | nil => rfl
  | cons message messages ih =>
      cases message with
      | query query => exact ih editor
      | event event =>
          simp only [exchange, respond, eventsOf_event, publishedFor_published]
          split
          · rw [List.length_cons, List.length_cons, ih]
          · exact ih _

theorem publishedFor_exchange_of_quiet (editor : Editor) {quiet : List Message}
    (noEvents : eventsOf uri quiet = []) : publishedFor uri (editor.exchange quiet).2 = [] := by
  rw [← List.length_eq_zero_iff, length_publishedFor_exchange, noEvents, List.length_nil]

/-- Without the queries the same happens. -/
theorem exchange_filter_event (editor : Editor) (messages : List Message) :
    editor.exchange (messages.filter fun message => message.event?.isSome) =
      ((editor.exchange messages).1, (editor.exchange messages).2.filter Reply.isPublished) := by
  induction messages generalizing editor with
  | nil => rfl
  | cons message messages ih =>
      cases message with
      | query query => exact ih editor
      | event event =>
          rw [List.filter_cons_of_pos rfl]
          simp only [exchange, respond, ih]
          rfl

/-! ## From the start -/

/-- The editor after it has taken in the messages. -/
abbrev afterAll (messages : List Message) : Editor := (exchange { } messages).1

theorem document?_afterAll (messages : List Message) (uri : String) :
    (afterAll messages).document? uri =
      ((eventsOf uri messages).foldl Event.textAfter none).map Document.ofText :=
  document?_exchange messages rfl

theorem answer_congr {editor other : Editor} {query : Query}
    (same : editor.document? query.uri = other.document? query.uri) :
    editor.answer query = other.answer query := by
  cases query with
  | hover uri line character =>
      change editor.document? uri = other.document? uri at same
      simp only [answer, hover?, same]
  | completion uri =>
      change editor.document? uri = other.document? uri at same
      simp only [answer, complete, same]
  | symbols uri =>
      change editor.document? uri = other.document? uri at same
      simp only [answer, symbols?, same]

/-- What the last event of a document leads to, whatever comes before it and behind it. -/
theorem exchange_last_event (before : List Message) (event : Event) {rest : List Message}
    (quiet : eventsOf event.uri rest = []) :
    (afterAll (before ++ .event event :: rest)).document? event.uri =
        (event.textAfter (((afterAll before).document? event.uri).map Document.text)).map
          Document.ofText ∧
      (publishedFor event.uri (exchange { } (before ++ .event event :: rest)).2).getLast? =
        some (((afterAll (before ++ .event event :: rest)).document? event.uri).elim []
          fun document => diagnostics document.outline) := by
  have handled := document?_handle_self (afterAll before) event
  have unchanged := document?_exchange rest handled
  rw [quiet, List.foldl_nil, ← handled] at unchanged
  have atEnd : (afterAll (before ++ .event event :: rest)).document? event.uri =
      ((afterAll before).handle event).1.document? event.uri := by
    rw [afterAll, exchange_append]
    exact unchanged
  refine ⟨atEnd.trans handled, ?_⟩
  rw [atEnd, ← handle_snd, exchange_append, publishedFor_append]
  simp only [exchange, respond, publishedFor_published, if_true]
  rw [publishedFor_exchange_of_quiet _ quiet, List.getLast?_concat]

/-- A document is open if its last event is not a close, and it has the text that this event carries
and the outline of that text. The diagnostics that were published last are those of its outline, and
none after a close. Queries change nothing, and their answers follow from the events of their
document. -/
theorem exchange_follows_events (messages : List Message) (uri : String) :
    (((afterAll messages).document? uri).isSome = true ↔
        ∃ event, (eventsOf uri messages).getLast? = some event ∧ event.isClose = false) ∧
      (∀ before event rest, messages = before ++ .event event :: rest → event.uri = uri →
        eventsOf uri rest = [] →
        (afterAll messages).document? uri =
            (event.textAfter (((afterAll before).document? uri).map Document.text)).map
              Document.ofText ∧
          (publishedFor uri (exchange { } messages).2).getLast? =
            some (((afterAll messages).document? uri).elim []
              fun document => diagnostics document.outline)) ∧
      (eventsOf uri messages = [] → publishedFor uri (exchange { } messages).2 = []) ∧
      exchange { } (messages.filter fun message => message.event?.isSome) =
        (afterAll messages, (exchange { } messages).2.filter Reply.isPublished) ∧
      ∀ before query rest, messages = before ++ .query query :: rest → query.uri = uri →
        ∀ before', eventsOf uri before' = eventsOf uri before →
          (exchange { } messages).2[before.length]? =
            some (.answered ((afterAll before').answer query)) := by
  refine ⟨?_, fun before event rest split same quiet => ?_, publishedFor_exchange_of_quiet _,
    exchange_filter_event _ _, fun before query rest split same before' alike => ?_⟩
  · rw [document?_afterAll, Option.isSome_map]
    cases last : (eventsOf uri messages).getLast? with
    | none => simp [List.getLast?_eq_none_iff.mp last]
    | some event =>
        obtain ⟨earlier, split⟩ := List.getLast?_eq_some_iff.mp last
        simp [split, List.foldl_append, Event.isSome_textAfter]
  · subst split same
    exact exchange_last_event before event quiet
  · subst split same
    have sameDocument : (afterAll before).document? query.uri =
        (afterAll before').document? query.uri := by
      rw [document?_afterAll, document?_afterAll, alike]
    rw [exchange_append, List.getElem?_append_right (Nat.le_of_eq (length_exchange _ _)),
      length_exchange, Nat.sub_self, ← answer_congr sameDocument]
    rfl

/-- A change without a text, between a query and the close of another document that is not open. -/
theorem exchange_follows_empty_change :
    let messages : List Message := [.event (.opened "a" "(def x".toList), .query (.symbols "a"),
      .event (.changed "a" []), .event (.closed "b")]
    (afterAll messages).document? "a" = some (Document.ofText "(def x".toList) ∧
      (publishedFor "b" (exchange { } messages).2).getLast? = some [] := by
  intro messages
  have changed := (exchange_follows_events messages "a").2.1 [_, _] (.changed "a" []) [_]
    rfl rfl rfl
  have closed := (exchange_follows_events messages "b").2.1 [_, _, _] (.closed "b") []
    rfl rfl rfl
  have earlier := ((exchange_follows_events [.event (.opened "a" "(def x".toList),
    .query (.symbols "a")] "a").2.1 [] (.opened "a" _) [_] rfl rfl rfl).1
  rw [changed.1, earlier, closed.2, closed.1]
  exact ⟨rfl, rfl⟩

end LazyLisp.Editor
