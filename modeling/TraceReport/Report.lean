import TraceReport.Event
import TraceReport.Text.Utf8

namespace TraceReport

namespace Report

/-- A report is written piece by piece: its header, each event after a separator, its footer. -/
inductive Piece
  | header
  | lineBreak
  | comma
  | event (e : Event)
  | footer

def Piece.text : Piece → Text
  | .header => "\x7b\"displayTimeUnit\":\"ms\",\"traceEvents\":[".toList
  | .lineBreak => "\n".toList
  | .comma => ",\n".toList
  | .event e => e.text
  | .footer => "\n]\x7d\n".toList

def Piece.bytes (p : Piece) : Bytes := Utf8.encode p.text

def Piece.isEvent : Piece → Bool
  | .event _ => true
  | _ => false

def listed (events : List Event) : List Piece := events.flatMap fun e => [.comma, .event e]

/-- The pieces of further events after `written` ones: only the first of all has no comma. -/
def continued (written : Nat) (events : List Event) : List Piece :=
  match written, events with
  | 0, e :: rest => .lineBreak :: .event e :: listed rest
  | _, events => listed events

def unfinished (events : List Event) : List Piece := .header :: continued 0 events

def finished (events : List Event) : List Piece := unfinished events ++ [.footer]

def textOf (pieces : List Piece) : Text := pieces.flatMap Piece.text

def bytesOf (pieces : List Piece) : Bytes := pieces.flatMap Piece.bytes

/-- What an output with room for so many bytes keeps, and the piece it could not take whole. -/
def deliver (room : Nat) : List Piece → Bytes × Option Piece
  | [] => ([], none)
  | piece :: rest =>
    let bytes := piece.bytes
    if bytes.length ≤ room then
      let (kept, refused) := deliver (room - bytes.length) rest
      (bytes ++ kept, refused)
    else (bytes.take room, some piece)

end Report
end TraceReport
