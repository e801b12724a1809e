import TaskMonitor.Proofs.Json.Nested
import TaskMonitor.Rpc.Message

/-! Frames are read back from their documents. -/

set_option autoImplicit false

namespace TaskMonitor

open Json (Reads Fills opens_object opens_list reads_ofOption reads_uint32 reads_uint32? reads_uint64?
  reads_int32? reads_text? reads_bool reads_list reads_record reads_bare reads_variant)

theorem TaskEntry.fills (entry : TaskEntry) :
    Fills TaskEntry.record.fields {} entry.document.members entry := by
  obtain ⟨number, name, state, core, priority, runTime, stack⟩ := entry
  simp only [TaskEntry.record, taskFields]
  refine .field ((reads_uint32? number).map _) ?_
  refine .field ((reads_text? name).map _) ?_
  refine .field ((reads_int32? state).map _) ?_
  refine .field ((reads_int32? core).map _) ?_
  refine .field ((reads_uint32? priority).map _) ?_
  refine .field ((reads_uint64? runTime).map _) ?_
  refine .field ((reads_uint32? stack).map _) ?_
  exact .done

theorem TaskEntry.reads (entry : TaskEntry) : Reads TaskEntry.reader entry.document entry :=
  reads_record TaskEntry.record entry (by decide) entry.fills rfl

theorem Reply.fills (reply : Reply) :
    Fills Reply.record.fields {} reply.document.members reply := by
  obtain ⟨tasks, runTime⟩ := reply
  have list : Reads (Json.nullable (Json.list TaskEntry.reader))
      (.ofOption (fun tasks => .list (tasks.map (·.document))) tasks) tasks := by
    apply reads_ofOption
    · intro tasks
      exact opens_list _
    · intro tasks
      exact reads_list fun entry _ => ⟨opens_object _, entry.reads⟩
  refine .field (list.map _) ?_
  refine .field ((reads_uint64? runTime).map _) ?_
  exact .done

theorem Reply.reads (reply : Reply) : Reads Reply.reader reply.document reply :=
  reads_record Reply.record reply (by decide) reply.fills rfl

namespace Rpc

theorem Status.ofName_name (status : Status) : ofName status.name = status := by
  cases status <;> rfl

theorem Status.reads (status : Status) : Reads Status.reader status.document status := by
  have named := Status.ofName_name status
  exact reads_bare (by rw [named])

theorem Header.fills (header : Header) :
    Fills Header.record.fields {} header.document.members
      ⟨some header.seqn, header.noReply, header.status⟩ := by
  obtain ⟨seqn, noReply, status⟩ := header
  refine .field ((reads_uint32 seqn).present.map _) ?_
  refine .field ((reads_bool noReply).map _) ?_
  refine .field (status.reads.map _) ?_
  exact .done

theorem Header.reads (header : Header) : Reads Header.reader header.document header :=
  reads_record Header.record _ (by decide) header.fills rfl

theorem reads_empty : Reads emptyRecord.read (.object []) () :=
  reads_record emptyRecord () (by decide) .done rfl

theorem TaskMessage.reads (message : TaskMessage) :
    Reads TaskMessage.reader message.document message := by
  cases message with
  | request => exact reads_variant rfl (reads_empty.map fun _ => TaskMessage.request)
  | answer reply => exact reads_variant rfl (reply.reads.map TaskMessage.answer)

theorem Callset.reads (callset : Callset) : Reads Callset.reader callset.document callset := by
  cases callset with
  | rtosUtils message => exact reads_variant rfl (message.reads.map Callset.rtosUtils)

theorem Callset.opens (callset : Callset) : Json.Opens callset.document := by
  cases callset with
  | rtosUtils message => exact opens_object _

theorem Frame.fills (frame : Frame) :
    Fills Frame.record.fields {} frame.document.members ⟨some frame.header, frame.callset⟩ := by
  obtain ⟨header, callset⟩ := frame
  refine .field (header.reads.present.map _) ?_
  cases callset with
  | none => exact .done
  | some callset =>
    refine .field ((callset.reads.nullable callset.opens).map _) ?_
    exact .done

theorem Frame.reads (frame : Frame) : Reads Frame.reader frame.document frame :=
  reads_record Frame.record _ (by decide) frame.fills rfl

/-- Whatever a frame holds, its payload is the UTF-8 form of its compact document, and decoding
the payload gives the frame back. -/
theorem Frame.decode_of_encode (frame : Frame) :
    Utf8.decode? frame.encode = some frame.document.compact ∧
      Frame.decode frame.encode = .ok frame :=
  ⟨Utf8.decode?_encode _, frame.reads.read⟩

end Rpc

end TaskMonitor
