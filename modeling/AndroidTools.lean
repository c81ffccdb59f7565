import AndroidTools.Lib.Bytes
import AndroidTools.Lib.Writes
import AndroidTools.Lib.FieldPatch
import AndroidTools.Lib.Run
import AndroidTools.Lib.Crc
import AndroidTools.Crc32
import AndroidTools.Lib.Text
import AndroidTools.Xml
import AndroidTools.Msp.Parse
import AndroidTools.Msp.Patching
import AndroidTools.Checksparse.Genfile
import AndroidTools.Checksparse.SparseImage
import AndroidTools.Checksparse.Expansion
import AndroidTools.Checksparse.Replace
import AndroidTools.Checksparse.LiveList
import AndroidTools.Lib.Skip
import AndroidTools.Checksparse.Bounds
import AndroidTools.Checksparse.Handled
import AndroidTools.Checksparse.Rejected
import AndroidTools.Lib.Reblock
import AndroidTools.Msp.Write
import AndroidTools.Dd
import AndroidTools.Lib.Framing
import AndroidTools.Lib.Passes
import AndroidTools.IpcLog.Message
import AndroidTools.Lib.Modify
import AndroidTools.Lib.Struct
import AndroidTools.IpcLog.Page
import AndroidTools.IpcLog.Dump
import AndroidTools.Lib.FirstLeast
import AndroidTools.IpcLog.Link
import AndroidTools.IpcLog.Extract
import AndroidTools.IpcLog.Test
import AndroidTools.Lib.Bisect
import AndroidTools.Lib.BootRecord
import AndroidTools.Lib.Boundary
import AndroidTools.Lib.CString
import AndroidTools.Lib.Dict
import AndroidTools.Lib.DirTree
import AndroidTools.Lib.FileTree
import AndroidTools.Lib.Halting
import AndroidTools.Lib.Hex
import AndroidTools.Lib.KeyOrder
import AndroidTools.Lib.Memo
import AndroidTools.Lib.Merge
import AndroidTools.Lib.Proc
import AndroidTools.Lib.Ranges
import AndroidTools.Lib.Sealed
import AndroidTools.Lib.Stream
import AndroidTools.Lib.Tries
import AndroidTools.Lib.Unseen
import AndroidTools.Logtool.Dates
import AndroidTools.Logtool.CleanUp
import AndroidTools.Logtool.DiskMonitor
import AndroidTools.Logtool.Dumpkmsg
import AndroidTools.Logtool.Elapsed
import AndroidTools.Logtool.LogCommand
import AndroidTools.Logtool.Logcat
import AndroidTools.Logtool.LogcatRuns
import AndroidTools.Logtool.LogcatDump
import AndroidTools.Logtool.Rotate
import AndroidTools.Logtool.SerialPort
import AndroidTools.Logtool.Segmentation
import AndroidTools.Msp.Main
import AndroidTools.Msp.OnePatch
import AndroidTools.Msp.Ordering
import AndroidTools.Msp.Pieces
import AndroidTools.Msp.Read
import AndroidTools.Ptool.Settings
import AndroidTools.Ptool.WriteProtect
import AndroidTools.Ptool.Layout
import AndroidTools.Ptool.Table
import AndroidTools.Ptool.Loop
import AndroidTools.Pipeline.ProgramText
import AndroidTools.Ptool.GptImage
import AndroidTools.Pipeline.PatchText
import AndroidTools.Pipeline.PatchDocument
import AndroidTools.Pipeline.GptPatches
import AndroidTools.Pipeline.ImageProgram
import AndroidTools.Pipeline.ValidGpt
import AndroidTools.Pipeline.AutoSize
import AndroidTools.Pipeline.DdCommand
import AndroidTools.Pipeline.DiskSize
import AndroidTools.Pipeline.PatchOrder
import AndroidTools.Ptool.EntryArray
import AndroidTools.Ptool.Separation
import AndroidTools.Ptool.Packing
import AndroidTools.Pipeline.Spill
import AndroidTools.Pipeline.SingleImage
import AndroidTools.Pipeline.FlashDisk
import AndroidTools.Ptool.Mbr
import AndroidTools.Ptool.MbrLoop
import AndroidTools.Ptool.EbrChain
import AndroidTools.Ptool.LastLogical
import AndroidTools.Pipeline.MbrPatches
import AndroidTools.Pipeline.LastPatched
import AndroidTools.Pipeline.Repatch
import AndroidTools.Pipeline.Wipe
import AndroidTools.Ptool.Alignment
import AndroidTools.Ptool.Space
import AndroidTools.Ptool.Divisions
import AndroidTools.Ptool.Guid
import AndroidTools.Ptool.ParseXml
import AndroidTools.Ptool.Document
import AndroidTools.Ptool.Locked
import AndroidTools.Ptool.Main
import AndroidTools.Ramdump.Register
import AndroidTools.Ramdump.Mmu
import AndroidTools.Ramdump.Armv7
import AndroidTools.Ramdump.Armv8
import AndroidTools.Ramdump.UnwindIndex
import AndroidTools.Ramdump.Unwind
import AndroidTools.Ramdump.Prologue
import AndroidTools.Ramdump.Symbols
import AndroidTools.Ramdump.Backtrace
import AndroidTools.Ramdump.FlatMappings
import AndroidTools.Ramdump.Coalesce
import AndroidTools.Ramdump.Laps
import AndroidTools.Ramdump.Dmesg
import AndroidTools.Ramdump.LinkedList
import AndroidTools.Ramdump.Memory
import AndroidTools.Ramdump.RbTree
import AndroidTools.Ramdump.Tlb
import AndroidTools.Ramdump.VirtualMemory
import AndroidTools.SerialClient
import AndroidTools.SerialClient.Bounds
import AndroidTools.SerialClient.Receive
import AndroidTools.Uploader.CopyFile
import AndroidTools.Uploader.RecursiveCopy
