import SmtpMta.Client.ReplyParser
import SmtpMta.Common.DictRelease
import SmtpMta.Common.Ini
import SmtpMta.Server.Lines

/-! `main` of the server: its options and its configuration file, up to the start of the
server and from there to its end. What is set on the command line goes before what the
file says, and what the file says goes before what is built in. -/
namespace SmtpMta.Server.Config
open Library.CString Library.SearchTree Library.Trace Common.ListHead Common.RedBlackTree
open Common.TreeSearch Common.TreeRotation Common.Dictionary Common.TreeIteration
open Common.DictRelease Common.StringUtils Common.Ini
open Client.ReplyParser (atoi)

inductive CommandOption where
  | c (path : Bytes)
  | p (port : Bytes)
  | d
  | h
  | unknown

/-- How the program ends: it exits, or the server was started and stopped, and these
blocks are freed. -/
inductive Ending where
  | exits (code : Int)
  | serves (port : Int) (mailPath logsPath : Bytes) (freed : List Nat)

section Options
variable {options : List CommandOption}

def paths (options : List CommandOption) : List Bytes :=
  options.filterMap fun
    | .c path => some path
    | _ => none

def ports (options : List CommandOption) : List Bytes :=
  options.filterMap fun
    | .p port => some port
    | _ => none

end Options

section File
variable {calls : List (Bytes × Bytes)} {oom : Addr → Bool}

end File

section Settings
variable {fopen : Bytes → Option Bytes} {room : Nat → Bool} {oom : Addr → Bool}

def mailLine : Line := .entry (ascii "mail_path ") (ascii " ./mail") none

end Settings

end SmtpMta.Server.Config
