import SmtpMta.Client.FailedCalls

/-! The bytes that `HANDLE_DATA` sends. The block with the text of the mail has no
terminator, but its length is taken with `strlen`. -/
namespace SmtpMta.Client.TextBlock
open Library.CString Fsm Queue FailedCalls

variable {room : Nat → Bool} {behind : Bytes} {nextState : State} {c : Conn} {queued : Bytes}

end SmtpMta.Client.TextBlock
