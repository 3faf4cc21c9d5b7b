import BytecodeOpt.Text.Extender
import BytecodeOpt.Text.Hidden

/-!
# Quoted text

A string literal as code listings show it: in double quotes, with the quote, the backslash and the
usual controls escaped, and every other character that would not be visible on its own written by
its code point.
-/

namespace BytecodeOpt.Text

def hexDigit (n : Nat) : Char := "0123456789abcdef".toList.getD n '0'

def hexDigits (n : Nat) : List Char :=
  if n < 16 then [hexDigit n] else hexDigits (n / 16) ++ [hexDigit (n % 16)]

def escapeByCode (c : Char) : List Char := ['\\', 'u', '\x7b'] ++ hexDigits c.toNat ++ ['\x7d']

def quoteChar (c : Char) : List Char :=
  if c = '\x00' then ['\\', '0']
  else if c = '\t' then ['\\', 't']
  else if c = '\r' then ['\\', 'r']
  else if c = '\n' then ['\\', 'n']
  else if c = '"' then ['\\', '"']
  else if c = '\\' then ['\\', '\\']
  else if isExtender c || isHidden c then escapeByCode c
  else [c]

def quote (s : String) : String :=
  String.ofList ('"' :: s.toList.flatMap quoteChar ++ ['"'])

end BytecodeOpt.Text
