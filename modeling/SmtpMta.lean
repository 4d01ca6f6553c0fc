import SmtpMta.Library.Crlf
import SmtpMta.Library.Regex
import SmtpMta.Library.SearchTree
import SmtpMta.Library.RedBlack
import SmtpMta.Library.ParentLinks
import SmtpMta.Library.Trace
import SmtpMta.Library.CrlfScan
import SmtpMta.Library.Stdio
import SmtpMta.Library.FiniteMap
import SmtpMta.Library.Interleaving
import SmtpMta.Common.ListHead
import SmtpMta.Common.RedBlackTree
import SmtpMta.Common.TreeRotation
import SmtpMta.Common.TreeRepair
import SmtpMta.Common.TreeSearch
import SmtpMta.Common.Dictionary
import SmtpMta.Common.StringUtils
import SmtpMta.Common.Maildir
import SmtpMta.Common.MaildirDelivery
import SmtpMta.Common.Ini
import SmtpMta.Common.TreeBalance
import SmtpMta.Common.TreeInsertion
import SmtpMta.Common.TreeIteration
import SmtpMta.Common.TreeLinks
import SmtpMta.Common.TreeDepth
import SmtpMta.Common.DictRelease
import SmtpMta.Common.Logger
import SmtpMta.Common.LogPipe
import SmtpMta.Common.LogRuns
import SmtpMta.Client.ReplyFraming
import SmtpMta.Client.Queue
import SmtpMta.Client.FailedCalls
import SmtpMta.Client.TextBlock
import SmtpMta.Client.Advance
import SmtpMta.Client.Success
import SmtpMta.Client.Script
import SmtpMta.Client.MailFile
import SmtpMta.Client.MailParser
import SmtpMta.Client.FileSlots
import SmtpMta.Client.MailBody
import SmtpMta.Client.SelectLoop
import SmtpMta.Client.Descriptors
import SmtpMta.Client.Answers
import SmtpMta.Client.Recipients
import SmtpMta.Client.HeaderScan
import SmtpMta.Client.RecipientTurns
import SmtpMta.Client.StackSlots
import SmtpMta.Client.HeaderCuts
import SmtpMta.Client.KeptRecipients
import SmtpMta.Client.Alignment
import SmtpMta.Client.Cleanup
import SmtpMta.Client.DirWorker
import SmtpMta.Client.Batch
import SmtpMta.Client.DirectoryTurns
import SmtpMta.Client.CommandLines
import SmtpMta.Client.ReplyCodes
import SmtpMta.Client.ReceiveBuffer
import SmtpMta.Client.Packs
import SmtpMta.Server.Smtp
import SmtpMta.Server.Lines
import SmtpMta.Server.Protocol
import SmtpMta.Server.SessionInvariant
import SmtpMta.Server.Delivery
import SmtpMta.Server.ReadLoop
import SmtpMta.Server.Reading
import SmtpMta.Server.Framing
import SmtpMta.Server.Commands
import SmtpMta.Server.Replies
import SmtpMta.Server.JoinedCommand
import SmtpMta.Server.Release
import SmtpMta.Server.LineRings
import SmtpMta.Server.MessageLines
import SmtpMta.Server.Rejection
import SmtpMta.Server.Mailboxes
import SmtpMta.Server.Isolation
import SmtpMta.Server.MainLoop
import SmtpMta.Server.Sharing
import SmtpMta.Server.MemorySafety
import SmtpMta.Server.SessionSteps
import SmtpMta.Server.LineLedger
import SmtpMta.Server.SessionTable
import SmtpMta.Server.Config
import SmtpMta.Server.Rounds
import SmtpMta.Server.StoredTexts
import SmtpMta.Exchange.Transparency
import SmtpMta.Exchange.TwoParties
import SmtpMta.Exchange.Phases
import SmtpMta.Exchange.Agreement
import SmtpMta.Exchange.RequestEnds
import SmtpMta.Exchange.Completion
import SmtpMta.Exchange.TextAgreement
import SmtpMta.Exchange.ManyClients
import SmtpMta.Exchange.FileArrival
import SmtpMta.Exchange.NetworkAgreement
