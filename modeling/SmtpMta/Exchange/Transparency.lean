import SmtpMta.Client.Queue
import SmtpMta.Server.SessionInvariant

/-! What the server makes of the message that the client sends. The client puts
no second dot before a dot, and the server takes none away. -/
namespace SmtpMta.Exchange.Transparency
open Library.CString Library.Crlf Library.Trace Client.Fsm Client.Queue Server.Smtp Server.ReadLoop
  Server.Protocol Server.SessionInvariant

theorem splitCrlf_payload (text : Bytes) :
    splitCrlf (text ++ ascii "\r\n.\r\n") = (crlfLines text ++ [ascii "."], []) := by
  have hdots : text ++ ascii "\r\n.\r\n" = text ++ crlf ++ ascii ".\r\n" := by
    rw [List.append_assoc]
    rfl
  rw [hdots, splitCrlf_crlf]
  rfl

section Session
variable (len : Nat) (mailPath : Bytes) {w : World} {d : Dialogue}

end Session

end SmtpMta.Exchange.Transparency
