import Carbon.Fifo.Single
import Carbon.Fifo.Ranges
import Carbon.Fifo.Batch
import Carbon.Fifo.Array
import Carbon.Diag.Messages
import Carbon.Hsem
import Carbon.Irq
import Carbon.Systime.Elapsed
import Carbon.Systime.Delay
import Carbon.Systime.Monotone
import Carbon.SdCard.Phase
import Carbon.SdCard.Disk
import Carbon.Ethernet.Dhcp
import Carbon.Ethernet.MacConfig
import Carbon.Ethernet.Link
import Carbon.Ethernet.Transmit
import Carbon.Ethernet.Ownership
import Carbon.Ethernet.Drain
import Carbon.Ethernet.Gather
import Carbon.BootScript
import Carbon.CopyFile
import Carbon.Console
import Carbon.Modbus.Exchange
import Carbon.Modbus.Response
import Carbon.Fifo.Pointers
import Carbon.Pool.MemoryPool
import Carbon.Trace.Failure
import Carbon.Trace.Theorems
import Carbon.Printf.Integer
import Carbon.Diag.Print
import Carbon.Ftp.WorkingDirectory
import Carbon.Ftp.Transfer
import Carbon.Heap.Allocate
import Carbon.Heap.Layout
import Carbon.Heap.Service
import Carbon.Heap.Statistics
