import TaskMonitor.Proofs.Json.Cut
import TaskMonitor.Proofs.Rpc.Message

/-! Messages that break off. Every field may end in the middle of its value, but a message is an
object, and no part of one is taken for a message. -/

set_option autoImplicit false

namespace TaskMonitor

open Json (Cut Closed CutFields opens_integer opens_text opens_list opens_object cut_ofOption
  cut_uint32 cut_uint64 cut_int32 closed_text closed_bool closed_list closed_record closed_bare
  closed_variant)

theorem cut_uint32? (value : Option UInt32) :
    Cut (Json.nullable Json.uint32) (.ofOption (fun n => .integer n.toNat) value) := by
  apply cut_ofOption
  · intro n
    exact opens_integer n.toNat
  · exact cut_uint32

theorem cut_uint64? (value : Option UInt64) :
    Cut (Json.nullable Json.uint64) (.ofOption (fun n => .integer n.toNat) value) := by
  apply cut_ofOption
  · intro n
    exact opens_integer n.toNat
  · exact cut_uint64

theorem cut_int32? (value : Option Int32) :
    Cut (Json.nullable Json.int32) (.ofOption (fun n => .integer n.toInt) value) := by
  apply cut_ofOption
  · intro n
    exact opens_integer n.toInt
  · exact cut_int32

theorem cut_text? (value : Option String) :
    Cut (Json.nullable Json.text) (.ofOption .text value) := by
  apply cut_ofOption opens_text
  intro text
  exact (closed_text text).cut

theorem TaskEntry.cuts (entry : TaskEntry) :
    CutFields TaskEntry.record.fields entry.document.members := by
  obtain ⟨number, name, state, core, priority, runTime, stack⟩ := entry
  simp only [TaskEntry.record, taskFields]
  refine .field (fun _ => (cut_uint32? number).map _) ?_
  refine .field (fun _ => (cut_text? name).map _) ?_
  refine .field (fun _ => (cut_int32? state).map _) ?_
  refine .field (fun _ => (cut_int32? core).map _) ?_
  refine .field (fun _ => (cut_uint32? priority).map _) ?_
  refine .field (fun _ => (cut_uint64? runTime).map _) ?_
  refine .field (fun _ => (cut_uint32? stack).map _) ?_
  exact .done

theorem TaskEntry.closed (entry : TaskEntry) : Closed TaskEntry.reader entry.document :=
  closed_record TaskEntry.record entry (by decide) entry.fills entry.cuts

theorem Reply.cuts (reply : Reply) :
    CutFields Reply.record.fields reply.document.members := by
  obtain ⟨tasks, runTime⟩ := reply
  have list : Cut (Json.nullable (Json.list TaskEntry.reader))
      (.ofOption (fun tasks => .list (tasks.map (·.document))) tasks) := by
    apply cut_ofOption
    · intro tasks
      exact opens_list _
    · intro tasks
      refine (closed_list fun entry _ => ?_).cut
      exact ⟨opens_object _, entry.reads, entry.closed.cut⟩
  refine .field (fun _ => list.map _) ?_
  refine .field (fun _ => (cut_uint64? runTime).map _) ?_
  exact .done

theorem Reply.closed (reply : Reply) : Closed Reply.reader reply.document :=
  closed_record Reply.record reply (by decide) reply.fills reply.cuts

namespace Rpc

theorem Header.cuts (header : Header) :
    CutFields Header.record.fields header.document.members := by
  obtain ⟨seqn, noReply, status⟩ := header
  refine .field (fun _ => (cut_uint32 seqn).present.map _) ?_
  refine .field (fun _ => (closed_bool noReply).cut.map _) ?_
  refine .field (fun _ => (closed_bare status.name).cut.map _) ?_
  exact .done

theorem Header.closed (header : Header) : Closed Header.reader header.document :=
  closed_record Header.record _ (by decide) header.fills header.cuts

theorem TaskMessage.closed (message : TaskMessage) :
    Closed TaskMessage.reader message.document := by
  cases message with
  | request =>
    have empty : Closed emptyRecord.read (.object []) :=
      closed_record emptyRecord () (by decide) .done .done
    exact closed_variant rfl (reads_empty.map fun _ => TaskMessage.request) (empty.cut.map _)
  | answer reply =>
    exact closed_variant rfl (reply.reads.map TaskMessage.answer) (reply.closed.cut.map _)

theorem Callset.closed (callset : Callset) : Closed Callset.reader callset.document := by
  cases callset with
  | rtosUtils message =>
    exact closed_variant rfl (message.reads.map Callset.rtosUtils) (message.closed.cut.map _)

theorem Frame.cuts (frame : Frame) :
    CutFields Frame.record.fields frame.document.members := by
  obtain ⟨header, callset⟩ := frame
  refine .field (fun _ => header.closed.cut.present.map _) ?_
  cases callset with
  | none => exact .done
  | some callset =>
    refine .field (fun _ => (callset.closed.cut.nullable callset.opens).map _) ?_
    exact .done

theorem Frame.closed (frame : Frame) : Closed Frame.reader frame.document :=
  closed_record Frame.record _ (by decide) frame.fills frame.cuts

/-- A frame or a reply that breaks off, wherever it does, is refused because its text ends. -/
theorem decode_part (frame : Frame) (reply : Reply) :
    (∀ part, part <+: frame.encode → part ≠ frame.encode →
      Frame.decode part = .error .endOfText) ∧
    ∀ part, part <+: Utf8.encode reply.document.compact →
      part ≠ Utf8.encode reply.document.compact →
        Json.read Reply.reader part = .error .endOfText :=
  ⟨fun _ => frame.closed.read, fun _ => reply.closed.read⟩

/-- A frame that breaks off in its number, which leaves a smaller one, and a reply that breaks off
between the two bytes of a character. -/
theorem decode_part_inside : ∃ (frame : Frame) (reply : Reply) (part part' : Bytes),
    (part <+: frame.encode ∧ part ≠ frame.encode ∧
      [0x3A, 0x34, 0x32, 0x39, 0x34] <:+ part ∧ frame.header.seqn = 4294967295) ∧
    (part' <+: Utf8.encode reply.document.compact ∧ part' ≠ Utf8.encode reply.document.compact ∧
      [Json.Token.quote, 0xC3] <:+ part') ∧
    Frame.decode part = .error .endOfText ∧ Json.read Reply.reader part' = .error .endOfText := by
  let frame := Frame.call 4294967295 .taskRequest
  let reply : Reply := { tasks := some [{ name := some "é" }] }
  have short : frame.encode.take 22 ≠ frame.encode := by decide +kernel
  have short' : (Utf8.encode reply.document.compact).take 38 ≠
      Utf8.encode reply.document.compact := by decide +kernel
  obtain ⟨first, second⟩ := decode_part frame reply
  exact ⟨frame, reply, _, _, ⟨List.take_prefix _ _, short, by decide +kernel, rfl⟩,
    ⟨List.take_prefix _ _, short', by decide +kernel⟩,
    first _ (List.take_prefix _ _) short, second _ (List.take_prefix _ _) short'⟩

end Rpc

end TaskMonitor
