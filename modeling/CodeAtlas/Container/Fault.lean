import CodeAtlas.Text.Numeral

namespace CodeAtlas.Container

open Text

/-- What keeps bytes from being a container, or a stream from being read. -/
inductive Fault
  | noMark
  | shortHeader
  | blockSize (size : Nat)
  | largeDirectory (bytes : Nat)
  | blockMapOutside (block : Nat)
  | directoryOutside
  | shortDirectory
  | tooManyStreams (count : Nat)
  | shortBlockList (stream : Nat)
  | noStream (stream : Nat)
  | streamOutside (stream : Nat)
  | shortStream (stream : Nat)
deriving Repr, DecidableEq

def Fault.message : Fault → Text
  | noMark => "missing MSF 7.00 signature"
  | shortHeader => "truncated superblock"
  | blockSize size => "unsupported block size " ++ decimal size
  | largeDirectory bytes => "stream directory of " ++ decimal bytes ++ " bytes does not fit one block map block"
  | blockMapOutside block => "block map address " ++ decimal block ++ " is outside the file"
  | directoryOutside => "stream directory block is outside the file"
  | shortDirectory => "truncated stream directory"
  | tooManyStreams count => "stream directory cannot hold " ++ decimal count ++ " streams"
  | shortBlockList stream => "block list of stream " ++ decimal stream ++ " is truncated"
  | noStream stream => "stream " ++ decimal stream ++ " does not exist"
  | streamOutside stream => "stream " ++ decimal stream ++ " references a block outside the file"
  | shortStream stream => "stream " ++ decimal stream ++ " is truncated"

end CodeAtlas.Container
